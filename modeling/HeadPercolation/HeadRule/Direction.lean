namespace HeadPercolation

-- The end of a list of children that a search begins at.
inductive Edge where
  | left
  | right
deriving DecidableEq

def Edge.opposite : Edge → Edge
  | left => right
  | right => left

-- The index of the element nearest to the edge that satisfies `p`.
def Edge.search {α : Type} (p : α → Bool) (xs : List α) : Edge → Option Nat
  | left => xs.findIdx? p
  | right => (xs.reverse.findIdx? p).map (xs.length - 1 - ·)

-- The index of the element at the edge.
def Edge.outermost? {α : Type} (xs : List α) (edge : Edge) : Option Nat :=
  edge.search (fun _ => true) xs

-- How the listed categories choose a child.
inductive Selection where
  -- A child of the first category that occurs.
  | ranked
  -- A child of any of the categories.
  | listed
  -- A child of none of the categories.
  | unlisted
deriving DecidableEq

-- Where a search begins and what it looks for.
structure Direction where
  edge : Edge
  selection : Selection
deriving DecidableEq

namespace Direction

def name : Direction → String
  | ⟨.left, .ranked⟩ => "left"
  | ⟨.left, .listed⟩ => "leftdis"
  | ⟨.left, .unlisted⟩ => "leftexcept"
  | ⟨.right, .ranked⟩ => "right"
  | ⟨.right, .listed⟩ => "rightdis"
  | ⟨.right, .unlisted⟩ => "rightexcept"

def ofName? : String → Option Direction
  | "left" => some ⟨.left, .ranked⟩
  | "leftdis" => some ⟨.left, .listed⟩
  | "leftexcept" => some ⟨.left, .unlisted⟩
  | "right" => some ⟨.right, .ranked⟩
  | "rightdis" => some ⟨.right, .listed⟩
  | "rightexcept" => some ⟨.right, .unlisted⟩
  | _ => none

-- The same search from the other edge.
def opposite (d : Direction) : Direction :=
  { d with edge := d.edge.opposite }

theorem ofName?_name (d : Direction) : ofName? d.name = some d := by
  obtain ⟨edge, selection⟩ := d
  cases edge <;> cases selection <;> rfl

end Direction

end HeadPercolation
