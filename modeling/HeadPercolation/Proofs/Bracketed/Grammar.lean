import HeadPercolation.Proofs.Bracketed.Tokens

namespace HeadPercolation.Bracketed

-- A word at this place would be the label of a constituent without one.
def BeginsUnlabelled (toks : List Token) : Prop :=
  ∀ text, toks.head? ≠ some (.word text)

-- The tokens of a tree. A word stands for itself. A constituent stands between parentheses, with
-- its label and then its parts, one at least. A word right behind the opening parenthesis is
-- always the label, and a constituent without a label is a root.
inductive Spells : Tree → List Token → Prop
  | word (text : String) : Spells (.leaf text) [.word text]
  | constituent (label : Option String) (parts : List (Tree × List Token)) (position : Nat)
      (hlabel : label ≠ some "") (hne : parts ≠ [])
      (hparts : ∀ part ∈ parts, Spells part.1 part.2)
      (hfirst : label = none → BeginsUnlabelled (parts.flatMap Prod.snd)) :
      Spells (.node (label.getD "ROOT") (parts.map Prod.fst))
        (.opening :: (label.map Token.word).toList ++ parts.flatMap Prod.snd ++
          [.closing position])

-- The tokens of trees one after the other, none of which is a mere word.
def SpellsTrees (ts : List Tree) (toks : List Token) : Prop :=
  ∃ parts : List (Tree × List Token), parts.map Prod.fst = ts ∧ parts.flatMap Prod.snd = toks ∧
    ∀ part ∈ parts, Spells part.1 part.2 ∧ part.1.isLeaf = false

-- The tokens of a constituent up to some place before its closing parenthesis.
def Begins (c : Constituent) (toks : List Token) : Prop :=
  ∃ (label : Option String) (parts : List (Tree × List Token)),
    label ≠ some "" ∧ (∀ part ∈ parts, Spells part.1 part.2) ∧
      (label = none → BeginsUnlabelled (parts.flatMap Prod.snd)) ∧
        c = ⟨label.getD "", parts.map Prod.fst⟩ ∧
          toks = .opening :: (label.map Token.word).toList ++ parts.flatMap Prod.snd

-- The tokens of constituents that are all open, each within the one before it in the tokens.
inductive Opens : List Constituent → List Token → Prop
  | nil : Opens [] []
  | cons {c : Constituent} {stack : List Constituent} {before toks : List Token}
      (hstack : Opens stack before) (hc : Begins c toks) : Opens (c :: stack) (before ++ toks)

-- The tokens of complete trees and then of the constituents that are open behind them.
def Reaches (done : List Tree) (stack : List Constituent) (toks : List Token) : Prop :=
  ∃ closed opened, toks = closed ++ opened ∧ SpellsTrees done closed ∧ Opens stack opened

-- What cannot stand within the open constituents: a closing parenthesis with nothing to close, or
-- behind a constituent without parts, a word outside of them all, and the end inside one.
inductive Offends : List Constituent → List Token → FormatError → Prop
  | unbalanced (position : Nat) (rest : List Token) :
      Offends [] (.closing position :: rest) (.unbalanced position)
  | emptyConstituent (label : String) (stack : List Constituent) (position : Nat)
      (rest : List Token) :
      Offends (⟨label, []⟩ :: stack) (.closing position :: rest) (.emptyConstituent label)
  | wordOutside (text : String) (rest : List Token) :
      Offends [] (.word text :: rest) (.wordOutside text)
  | unterminated (c : Constituent) (stack : List Constituent) :
      Offends (c :: stack) [] .unterminated

-- The tokens offend right behind those given, with trees complete before them.
def OffendsAfter (toks before : List Token) (done : List Tree) (error : FormatError) : Prop :=
  ∃ stack rest, toks = before ++ rest ∧ Reaches done stack before ∧ Offends stack rest error

-- What there is to be read in tokens: trees and nothing else, or those before an offence.
inductive Outcome (toks : List Token) : Reading → Prop
  | complete {ts : List Tree} (h : SpellsTrees ts toks) : Outcome toks ⟨ts, none⟩
  | stopped {before : List Token} {done : List Tree} {error : FormatError}
      (h : OffendsAfter toks before done error) : Outcome toks ⟨done, some error⟩

-- Is the label of the innermost constituent settled, if it is only just open?
def LabelSettled (stack : List Constituent) (toks : List Token) : Prop :=
  ∀ outer, stack = ⟨"", []⟩ :: outer → BeginsUnlabelled toks

section Tokens

variable {t : Tree} {toks : List Token} {parts : List (Tree × List Token)}

theorem Spells.ne_nil (h : Spells t toks) : toks ≠ [] := by
  cases h <;> simp

theorem beginsUnlabelled_append (hne : toks ≠ []) (rest : List Token) :
    BeginsUnlabelled (toks ++ rest) ↔ BeginsUnlabelled toks := by
  obtain ⟨tok, toks, rfl⟩ := List.exists_cons_of_ne_nil hne
  rfl

theorem flatMap_parts_ne_nil (hne : parts ≠ []) (hparts : ∀ part ∈ parts, Spells part.1 part.2) :
    parts.flatMap Prod.snd ≠ [] := by
  obtain ⟨part, parts, rfl⟩ := List.exists_cons_of_ne_nil hne
  have hpart : part.2 ≠ [] := (hparts part List.mem_cons_self).ne_nil
  simp [hpart]

theorem close_eq {label : Option String} (h : label ≠ some "") (ts : List Tree) :
    (⟨label.getD "", ts⟩ : Constituent).close = .node (label.getD "ROOT") ts := by
  cases label with
  | none => rfl
  | some label =>
      have hlabel : label ≠ "" := by simpa using h
      simp [Constituent.close, hlabel]

-- A tree that is no word is a constituent and its closing parenthesis.
theorem Spells.exists_close (h : Spells t toks) (ht : t.isLeaf = false) :
    ∃ c before position, Begins c before ∧ c.children ≠ [] ∧ t = c.close ∧
      toks = before ++ [.closing position] := by
  cases h with
  | word text => cases ht
  | constituent label parts position hlabel hne hparts hfirst =>
      exact ⟨⟨label.getD "", parts.map Prod.fst⟩, _, position,
        ⟨label, parts, hlabel, hparts, hfirst, rfl, rfl⟩, by simpa using hne,
        (close_eq hlabel _).symm, rfl⟩

theorem SpellsTrees.nil : SpellsTrees [] [] :=
  ⟨[], rfl, rfl, by simp⟩

theorem SpellsTrees.append {ts us : List Tree} {before : List Token} (h : SpellsTrees ts before)
    (h' : SpellsTrees us toks) : SpellsTrees (ts ++ us) (before ++ toks) := by
  obtain ⟨parts, rfl, rfl, hparts⟩ := h
  obtain ⟨parts', rfl, rfl, hparts'⟩ := h'
  refine ⟨parts ++ parts', by simp, by simp, fun part hpart => ?_⟩
  cases List.mem_append.mp hpart with
  | inl hpart => exact hparts part hpart
  | inr hpart => exact hparts' part hpart

theorem Spells.spellsTrees (h : Spells t toks) (ht : t.isLeaf = false) : SpellsTrees [t] toks :=
  ⟨[(t, toks)], rfl, by simp, by simpa using ⟨h, ht⟩⟩

end Tokens

section Begins

variable {c : Constituent} {before toks : List Token} {t : Tree}

theorem begins_labelled {label : String} (h : label ≠ "") :
    Begins ⟨label, []⟩ [.opening, .word label] :=
  ⟨some label, [], by simpa using h, by simp, by simp, rfl, rfl⟩

theorem begins_unlabelled : Begins ⟨"", []⟩ [.opening] :=
  ⟨none, [], by simp, by simp, fun _ => by simp [BeginsUnlabelled], rfl, rfl⟩

theorem Begins.beginsUnlabelled (hc : Begins c toks) (rest : List Token) :
    BeginsUnlabelled (toks ++ rest) := by
  obtain ⟨label, parts, -, -, -, -, rfl⟩ := hc
  simp [BeginsUnlabelled]

theorem Begins.add (hc : Begins c before) (ht : Spells t toks)
    (hnext : c = ⟨"", []⟩ → BeginsUnlabelled toks) :
    Begins { c with children := c.children ++ [t] } (before ++ toks) := by
  obtain ⟨label, parts, hlabel, hparts, hfirst, rfl, rfl⟩ := hc
  refine ⟨label, parts ++ [(t, toks)], hlabel, ?_, ?_, by simp, by simp⟩
  · intro part hpart
    rcases List.mem_append.mp hpart with hpart | hpart
    · exact hparts part hpart
    · rw [List.mem_singleton.mp hpart]
      exact ht
  · rintro rfl
    rw [List.flatMap_append, List.flatMap_singleton]
    by_cases hne : parts = []
    · subst hne
      exact hnext rfl
    · exact (beginsUnlabelled_append (flatMap_parts_ne_nil hne hparts) toks).mpr (hfirst rfl)

-- A constituent with parts is complete behind its closing parenthesis.
theorem Begins.close (hc : Begins c before) (hne : c.children ≠ []) (position : Nat) :
    Spells c.close (before ++ [.closing position]) := by
  obtain ⟨label, parts, hlabel, hparts, hfirst, rfl, rfl⟩ := hc
  have hne : parts ≠ [] := by simpa using hne
  rw [close_eq hlabel]
  exact .constituent label parts position hlabel hne hparts hfirst

end Begins

section Reaches

variable {c outer : Constituent} {stack : List Constituent} {before toks : List Token}
  {done : List Tree} {t : Tree}

theorem Reaches.push (h : Reaches done stack before) (hc : Begins c toks) :
    Reaches done (c :: stack) (before ++ toks) := by
  obtain ⟨closed, opened, rfl, hclosed, hopened⟩ := h
  exact ⟨closed, opened ++ toks, by simp, hclosed, .cons hopened hc⟩

theorem Reaches.add (h : Reaches done (c :: stack) before) (ht : Spells t toks)
    (hnext : c = ⟨"", []⟩ → BeginsUnlabelled toks) :
    Reaches done ({ c with children := c.children ++ [t] } :: stack) (before ++ toks) := by
  obtain ⟨closed, _, rfl, hclosed, hopened⟩ := h
  cases hopened with
  | @cons _ _ opened inner hstack hc =>
      exact ⟨closed, opened ++ (inner ++ toks), by simp, hclosed, .cons hstack (hc.add ht hnext)⟩

-- The closing parenthesis of a constituent makes it a part of the one around it.
theorem Reaches.close (h : Reaches done (c :: outer :: stack) before) (hne : c.children ≠ [])
    (position : Nat) :
    Reaches done ({ outer with children := outer.children ++ [c.close] } :: stack)
      (before ++ [.closing position]) := by
  obtain ⟨closed, _, rfl, hclosed, hopened⟩ := h
  cases hopened with
  | @cons _ _ opened inner hstack hc =>
      have houter : Reaches done (outer :: stack) (closed ++ opened) :=
        ⟨closed, opened, rfl, hclosed, hstack⟩
      have hadd := houter.add (hc.close hne position) fun _ => hc.beginsUnlabelled _
      simpa using hadd

-- Or a complete tree, if there is none around it.
theorem Reaches.close_last (h : Reaches done [c] before) (hne : c.children ≠ [])
    (position : Nat) : Reaches (done ++ [c.close]) [] (before ++ [.closing position]) := by
  obtain ⟨closed, _, rfl, hclosed, hopened⟩ := h
  cases hopened with
  | @cons _ _ opened inner hstack hc =>
      cases hstack with
      | nil =>
          have hlast := (hc.close hne position).spellsTrees rfl
          exact ⟨closed ++ (inner ++ [.closing position]), [], by simp, hclosed.append hlast, .nil⟩

end Reaches

end HeadPercolation.Bracketed
