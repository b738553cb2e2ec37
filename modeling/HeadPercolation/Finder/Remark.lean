import HeadPercolation.Tree.Bracketed

namespace HeadPercolation

-- What a finder reports about its decisions.
inductive Remark where
  | arrived (label : String) (parent : Option String)
  -- A preterminal was looked at, to see if it is an auxiliary.
  | checked (tag word : String)
  | passive (found : Bool)
  | besideAuxiliary (label : String) (head : Option Tree)
  | besideCopula (label : String) (head : Option Tree)
  -- The head of a coordination was moved to its first conjunct.
  | moved (source target : Nat)
  | chosen (label head : String)

namespace Remark

-- What is written for a label or a head that is not there.
def absent : String :=
  "None"

def headText (head : Option Tree) : String :=
  (head.map Tree.bracketed).getD absent

def text : Remark → String
  | arrived label parent => s!"At {label}, parent is {parent.getD absent}"
  | checked tag word => s!"Checking {tag} head is {word}/{tag}"
  | passive found => "Passive or progressive auxiliary: " ++ if found then "True" else "False"
  | besideAuxiliary label head => s!"Head of {label} with an auxiliary is {headText head}"
  | besideCopula label head => s!"Head of {label} with a copula is {headText head}"
  | moved source target => s!"Coordination: head moved from {source} to {target}"
  | chosen label head => s!"Head of {label} is {head}"

end Remark

end HeadPercolation
