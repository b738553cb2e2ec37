import HeadPercolation.Pattern.Match
import Mathlib.Computability.Language
import Mathlib.Control.Monad.Basic

namespace HeadPercolation.Pattern

open scoped Computability

-- What a pattern compiles to can be evaluated and compared.
deriving instance DecidableEq for FormError

-- Induction over a term and the terms in its brackets.
@[elab_as_elim, induction_eliminator]
theorem Term.induction {motive : Term → Prop}
    (item : ∀ i, motive (.item i))
    (anyOf : ∀ alternatives, (∀ term ∈ alternatives, motive term) → motive (.anyOf alternatives))
    (containing : ∀ term reach shape contents, motive term → (∀ c ∈ contents, motive c) →
      motive (.containing term reach shape contents))
    (capture : ∀ term name, motive term → motive (.capture term name))
    (negated : ∀ term, motive term → motive (.negated term))
    (repeated : ∀ term times, motive term → motive (.repeated term times)) :
    ∀ term, motive term
  | .item i => item i
  | .anyOf alternatives => anyOf alternatives fun term _ =>
      induction item anyOf containing capture negated repeated term
  | .containing term reach shape contents => containing term reach shape contents
      (induction item anyOf containing capture negated repeated term)
      fun c _ => induction item anyOf containing capture negated repeated c
  | .capture term name =>
      capture term name (induction item anyOf containing capture negated repeated term)
  | .negated term => negated term (induction item anyOf containing capture negated repeated term)
  | .repeated term times =>
      repeated term times (induction item anyOf containing capture negated repeated term)

-- A text that is no reserved sign.
def Answer.IsText : Answer → Prop
  | text value => Token.ofText value = .item value
  | _ => False

-- A macro that answers for every node with an item or, as a test, with a truth value.
def Macro.IsSound : Macro → Prop
  | constant answer => answer.IsText
  | test answer => ∀ t, (∃ value, answer t = .truth value) ∨ (answer t).IsText

def Macro.answer (t : Tree) : Macro → Answer
  | constant answer => answer
  | test answer => answer t

def Answer.Says (t : Tree) : Answer → Prop
  | truth value => value
  | text value => (Atom.ofText value).holds t
  | _ => False

def Item.Holds (context : Context) (t : Tree) : Item → Prop
  | atom a => a.holds t
  | named name => ∃ m, context name = some m ∧ (m.answer t).Says t

-- The lists of nodes among which the contents of a node are looked for: its children, or the
-- children of any node of its tree.
def Reach.Offers (t : Tree) (nodes : List Tree) : Reach → Prop
  | children => nodes = t.children
  | anywhere => ∃ path s, t.get? path = some s ∧ nodes = s.children

-- The lists of one node, which satisfies `p`.
def oneNode (p : Tree → Prop) : Language Tree :=
  {nodes | ∃ t, p t ∧ nodes = [t]}

-- The lists of as many nodes as a term stands for.
def nodesOf (times : Option Repetition) (p : Tree → Prop) : Language Tree :=
  match times with
  | none => oneNode p
  | some .optional => 1 + oneNode p
  | some .zeroOrMore => (oneNode p)∗
  | some .oneOrMore => oneNode p * (oneNode p)∗

-- What a term says about a node. The terms of a set each hold of some node. Those of a sequence
-- make up a regular expression for the first nodes, or for all nodes if it is anchored. How
-- often a term is repeated matters in a sequence only.
def Term.Holds (context : Context) (term : Term) (t : Tree) : Prop :=
  match term with
  | .item i => i.Holds context t
  | .anyOf alternatives => ∃ term, ∃ _ : term ∈ alternatives, term.Holds context t
  | .containing term reach shape contents =>
    term.Holds context t ∧ ∃ nodes, reach.Offers t nodes ∧
      match shape with
      | .set => ∀ c ∈ contents, ∃ s ∈ nodes, c.Holds context s
      | .sequence anchored =>
        ∃ front rest, nodes = front ++ rest ∧ (anchored → rest = []) ∧
          front ∈ (contents.map fun c => nodesOf c.repetition? fun s => c.Holds context s).prod
  | .capture term _ => term.Holds context t
  | .negated term => ¬ term.Holds context t
  | .repeated term _ => term.Holds context t

mutual

-- The names whose meaning is asked for when a node is tested.
def Term.macros : Term → List String
  | .item (.atom _) => []
  | .item (.named name) => [name]
  | .anyOf alternatives => macrosOf alternatives
  | .containing term _ _ contents => term.macros ++ macrosOf contents
  | .capture term _ => term.macros
  | .negated term => term.macros
  | .repeated term _ => term.macros

def macrosOf : List Term → List String
  | [] => []
  | term :: terms => term.macros ++ macrosOf terms

end

-- Has each of the names a meaning that cannot fail?
def Context.Supports (context : Context) (names : List String) : Prop :=
  ∀ name ∈ names, ∃ m, context name = some m ∧ m.IsSound

theorem mem_macrosOf {name : String} {terms : List Term} :
    name ∈ macrosOf terms ↔ ∃ term ∈ terms, name ∈ term.macros := by
  induction terms with
  | nil => simp [macrosOf]
  | cons term terms ih => simp [macrosOf, ih]

theorem Context.Supports.of_mem {context : Context} {terms : List Term} {term : Term}
    (h : context.Supports (macrosOf terms)) (hm : term ∈ terms) : context.Supports term.macros :=
  fun name hn => h name (mem_macrosOf.mpr ⟨term, hm, hn⟩)

theorem mem_kstar_oneNode {p : Tree → Prop} {nodes : List Tree} :
    nodes ∈ (oneNode p)∗ ↔ ∀ t ∈ nodes, p t := by
  rw [Language.mem_kstar]
  constructor
  · rintro ⟨parts, rfl, hparts⟩ t ht
    obtain ⟨part, hpart, htp⟩ := List.mem_flatten.mp ht
    obtain ⟨s, hs, rfl⟩ := hparts part hpart
    rw [List.mem_singleton.mp htp]
    exact hs
  · intro h
    refine ⟨nodes.map ([·]), by simp [← List.flatMap_def], fun part hpart => ?_⟩
    obtain ⟨t, ht, rfl⟩ := List.mem_map.mp hpart
    exact ⟨t, h t ht, rfl⟩

section

variable {p : Tree → Prop} {nodes : List Tree}

theorem mem_nodesOf_none : nodes ∈ nodesOf none p ↔ ∃ t, p t ∧ nodes = [t] :=
  Iff.rfl

theorem mem_nodesOf_optional :
    nodes ∈ nodesOf (some .optional) p ↔ nodes = [] ∨ ∃ t, p t ∧ nodes = [t] :=
  Iff.rfl

theorem mem_nodesOf_zeroOrMore :
    nodes ∈ nodesOf (some .zeroOrMore) p ↔ ∀ t ∈ nodes, p t :=
  mem_kstar_oneNode

theorem mem_nodesOf_oneOrMore :
    nodes ∈ nodesOf (some .oneOrMore) p ↔ nodes ≠ [] ∧ ∀ t ∈ nodes, p t := by
  simp only [nodesOf, Language.mem_mul, mem_kstar_oneNode]
  constructor
  · rintro ⟨first, ⟨t, ht, rfl⟩, rest, hrest, rfl⟩
    exact ⟨by simp, by simpa using ⟨ht, hrest⟩⟩
  · rintro ⟨hne, h⟩
    obtain ⟨t, rest, rfl⟩ := List.exists_cons_of_ne_nil hne
    exact ⟨[t], ⟨t, h t (by simp), rfl⟩, rest, fun s hs => h s (by simp [hs]), rfl⟩

end

end HeadPercolation.Pattern
