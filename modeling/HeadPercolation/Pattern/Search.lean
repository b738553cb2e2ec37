import HeadPercolation.Pattern.Match

namespace HeadPercolation.Pattern

-- The nodes that were found before a search ended, and why it ended if nodes were left.
structure Findings where
  nodes : List Node
  error : Option Error

-- The nodes of a list that match a pattern.
def searchAmong (context : Context) (pattern : String) : List Node → Findings
  | [] => ⟨[], none⟩
  | n :: ns =>
    match matchCaptures context pattern n with
    | .error error => ⟨[], some error⟩
    | .ok none => searchAmong context pattern ns
    | .ok (some _) =>
      let rest := searchAmong context pattern ns
      { rest with nodes := n :: rest.nodes }

-- The nodes of a tree that match a pattern, each node before those below it.
def search (context : Context) (pattern : String) (t : Tree) : Findings :=
  searchAmong context pattern t.nodes

-- The first of them. An error counts only if nothing is found before it.
def searchFirst (context : Context) (pattern : String) (t : Tree) : Except Error (Option Node) :=
  match search context pattern t with
  | ⟨n :: _, _⟩ => .ok (some n)
  | ⟨[], some error⟩ => .error error
  | ⟨[], none⟩ => .ok none

end HeadPercolation.Pattern
