import HeadPercolation.HeadRule.Direction
import HeadPercolation.Tree.Basic

namespace HeadPercolation

-- One attempt of a head rule to choose a child.
structure Directive where
  direction : Direction
  categories : List String
deriving DecidableEq

-- A directive whose direction is only a name.
structure Directive.Written where
  direction : String
  categories : List String

namespace Directive

abbrev left (categories : List String) : Directive :=
  ⟨⟨.left, .ranked⟩, categories⟩

abbrev right (categories : List String) : Directive :=
  ⟨⟨.right, .ranked⟩, categories⟩

abbrev rightListed (categories : List String) : Directive :=
  ⟨⟨.right, .listed⟩, categories⟩

abbrev rightUnlisted (categories : List String) : Directive :=
  ⟨⟨.right, .unlisted⟩, categories⟩

def written (d : Directive) : Written :=
  ⟨d.direction.name, d.categories⟩

-- The index of the child that the directive chooses.
def choose? (d : Directive) (children : List Tree) : Option Nat :=
  let search p := d.direction.edge.search (fun child => p child.basicCategory) children
  match d.direction.selection with
  | .ranked => d.categories.findSome? fun category => search (· == category)
  | .listed => search d.categories.contains
  | .unlisted => search (!d.categories.contains ·)

-- The directive that looks from the other edge.
def opposite (d : Directive) : Directive :=
  { d with direction := d.direction.opposite }

end Directive

end HeadPercolation
