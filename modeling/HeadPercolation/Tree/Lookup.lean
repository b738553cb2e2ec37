import HeadPercolation.Tree.Basic

namespace HeadPercolation

-- A step from a node to one of its children.
inductive Step where
  -- The first child that matches the tag.
  | tagged (tag : String)
  -- The child at the index, counted from the end if it is negative.
  | index (i : Int)

inductive StepError where
  | noSuchChild (tag : String)
  | leafHasNoChildren
  | outOfRange

def StepError.message : StepError → String
  | .noSuchChild tag => s!"Subtree has no {tag} child"
  | .leafHasNoChildren => "Leaf has no children"
  | .outOfRange => "list index out of range"

namespace Node

def step (n : Node) : Step → Except StepError Node
  | .tagged tag =>
    match n.children.find? (·.tree.matchesTag tag) with
    | some child => .ok child
    | none => .error (.noSuchChild tag)
  | .index i =>
    if n.tree.isLeaf then
      .error .leafHasNoChildren
    else
      let place := if i < 0 then i + n.children.length else i
      match place.toNat?.bind (n.children[·]?) with
      | some child => .ok child
      | none => .error .outOfRange

end Node

end HeadPercolation
