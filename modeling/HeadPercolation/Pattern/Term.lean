import HeadPercolation.Pattern.Error
import HeadPercolation.Text.Case
import HeadPercolation.Tree.Basic

namespace HeadPercolation.Pattern

-- A test of a single node.
inductive Atom where
  -- Any node.
  | any
  -- A leaf whose word is the text but for case.
  | leaf (text : String)
  -- A node over exactly the words of the text, but for case.
  | words (text : String)
  -- A node above the leaves whose label matches the tag.
  | tag (label : String)
deriving DecidableEq

namespace Atom

def ofText (text : String) : Atom :=
  if text == "." then any
  else if Text.startsWith "@\"" text then leaf (String.ofList (text.toList.drop 2).dropLast)
  else if Text.startsWith "\"" text then words (String.ofList (text.toList.drop 1).dropLast)
  else tag text

def text : Atom → String
  | any => "."
  | leaf text => "@\"" ++ text ++ "\""
  | words text => "\"" ++ text ++ "\""
  | tag label => label

def holds (t : Tree) : Atom → Bool
  | any => true
  | leaf text => t.isLeaf && Text.sameButForCase text t.label
  | words text => Text.sameButForCase text t.text
  | tag label => t.matchesTag label

end Atom

-- An atom, or a name whose meaning is given when a node is tested.
inductive Item where
  | atom (atom : Atom)
  | named (name : String)
deriving DecidableEq

namespace Item

-- A percent sign marks a name.
def ofText (text : String) : Item :=
  if Text.startsWith "%" text then
    named (String.ofList (text.toList.drop 1))
  else
    atom (.ofText text)

def text : Item → String
  | atom a => a.text
  | named name => "%" ++ name

end Item

-- How the terms within brackets apply to a list of nodes.
inductive Shape where
  -- Each term holds of some node.
  | set
  -- The terms hold of the first nodes one after the other. If anchored, no node is left over.
  | sequence (anchored : Bool)
deriving DecidableEq

-- A test of a node that can capture nodes by name. The modifiers of a term are given from the
-- inside out: contents, capture name, negation, repetition.
inductive Term where
  | item (item : Item)
  | anyOf (alternatives : List Term)
  | containing (term : Term) (reach : Reach) (shape : Shape) (contents : List Term)
  | capture (term : Term) (name : String)
  | negated (term : Term)
  | repeated (term : Term) (times : Repetition)

mutual

def Term.same : Term → Term → Bool
  | .item i, .item j => i == j
  | .anyOf ss, .anyOf ts => sameTerms ss ts
  | .containing s reach shape ss, .containing t reach' shape' ts =>
    s.same t && reach == reach' && shape == shape' && sameTerms ss ts
  | .capture s name, .capture t name' => s.same t && name == name'
  | .negated s, .negated t => s.same t
  | .repeated s times, .repeated t times' => s.same t && times == times'
  | _, _ => false

def sameTerms : List Term → List Term → Bool
  | [], [] => true
  | s :: ss, t :: ts => s.same t && sameTerms ss ts
  | _, _ => false

end

mutual

theorem Term.same_iff (s t : Term) : s.same t = true ↔ s = t := by
  cases s <;> cases t <;> simp [Term.same, Term.same_iff, sameTerms_iff, and_assoc]

theorem sameTerms_iff (ss ts : List Term) : sameTerms ss ts = true ↔ ss = ts := by
  cases ss <;> cases ts <;> simp [sameTerms, Term.same_iff, sameTerms_iff]

end

instance : DecidableEq Term :=
  fun s t => decidable_of_iff _ (Term.same_iff s t)

-- How often the term may hold in a sequence; `none` for exactly once.
def Term.repetition? : Term → Option Repetition
  | .repeated _ times => some times
  | _ => none

end HeadPercolation.Pattern
