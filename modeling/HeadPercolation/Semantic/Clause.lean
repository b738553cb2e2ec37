import HeadPercolation.Finder.Basic

namespace HeadPercolation

-- Does the node hold the word `there` of an existential clause?
def holdsExistential (t : Tree) : Bool :=
  t.tags.contains "EX"

-- The sisters to the left of a node, or all children of a tree in which it has no place.
def Parent.before (parent : Parent) : List Tree :=
  match parent.place with
  | some i => parent.tree.children.take i
  | none => parent.tree.children

-- Is the node part of an existential clause? For a VP the word `there` is looked for to its left,
-- up to another VP. For an SQ it is looked for among all children of its parent but the verbs.
def isExistential (t : Tree) : Option Parent → Bool
  | none => false
  | some parent =>
    if t.basicCategory == "VP" then
      (parent.before.takeWhile (·.label != "VP")).any holdsExistential
    else if Text.startsWith "SQ" t.basicCategory then
      (parent.tree.children.filter (!Text.startsWith "VB" ·.label)).any holdsExistential
    else
      false

-- Is the node the SQ of a question with a phrase such as `who` or `which dog`?
def isWhQuestion (t : Tree) : Option Parent → Bool
  | none => false
  | some parent =>
    Text.startsWith "SQ" t.label && parent.tree.label == "SBARQ" &&
      parent.tree.children.any (Text.startsWith "WH" ·.label)

end HeadPercolation
