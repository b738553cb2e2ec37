import HeadPercolation.Tree.Basic

namespace HeadPercolation.Tree

-- What stands before a node of an outline: nothing at the root, two blanks more for each level
-- below the first.
def indent : Nat → String
  | 0 => ""
  | level + 1 => String.join (List.replicate level "  ") ++ "+-"

mutual

-- The lines of an outline, one for each node that is not the word of a preterminal.
def outlineAt (level : Nat) : Tree → List String
  | leaf word => [s!"{indent level}'{word}'"]
  | node label [leaf word] => [s!"{indent level}{label}: '{word}'"]
  | node label ts => s!"{indent level}{label}" :: outlineEach (level + 1) ts

def outlineEach (level : Nat) : List Tree → List String
  | [] => []
  | t :: ts => outlineAt level t ++ outlineEach level ts

end

def outline (t : Tree) : String :=
  "\n".intercalate (outlineAt 0 t)

-- A short text that names a node.
def summary : Tree → String
  | leaf word => s!"<Tree for leaf '{word}'>"
  | node label ts => s!"<Tree with label {label} and length {ts.length}>"

end HeadPercolation.Tree
