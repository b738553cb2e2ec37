import HeadPercolation.Proofs.Bracketed.Grammar

namespace HeadPercolation.Bracketed

-- What is read next is decided by the first two tokens and by the stack.
attribute [simp] readFrom

section Tokens

variable {c : Constituent} {stack : List Constituent} {before toks rest : List Token} {t : Tree}
  {done : List Tree}

-- Trees that were complete before.
def Reading.after (done : List Tree) (reading : Reading) : Reading :=
  { reading with trees := done ++ reading.trees }

theorem Reading.after_cons (done : List Tree) (t : Tree) (reading : Reading) :
    (reading.cons t).after done = reading.after (done ++ [t]) := by
  simp [after, cons]

theorem readFrom_unlabelled (h : BeginsUnlabelled rest) :
    readFrom stack (.opening :: rest) = readFrom (⟨"", []⟩ :: stack) rest := by
  cases rest with
  | nil => simp
  | cons tok rest =>
      cases tok with
      | opening => simp
      | closing position => simp
      | word text => exact absurd rfl (h text)

theorem readFrom_closing_last (hne : c.children ≠ []) (position : Nat) :
    readFrom [c] (.closing position :: rest) = (readFrom [] rest).cons c.close := by
  simp [hne]

theorem readFrom_closing (hne : c.children ≠ []) (outer : Constituent) (position : Nat) :
    readFrom (c :: outer :: stack) (.closing position :: rest) =
      readFrom ({ outer with children := outer.children ++ [c.close] } :: stack) rest := by
  simp [hne]

-- The parts of a constituent are added to it, whatever follows them.
theorem readFrom_parts {parts : List (Tree × List Token)}
    (hparts : ∀ part ∈ parts, ∀ (c : Constituent) (stack : List Constituent) (rest : List Token),
      readFrom (c :: stack) (part.2 ++ rest) =
        readFrom ({ c with children := c.children ++ [part.1] } :: stack) rest) :
    readFrom (c :: stack) (parts.flatMap Prod.snd ++ rest) =
      readFrom ({ c with children := c.children ++ parts.map Prod.fst } :: stack) rest := by
  induction parts generalizing c with
  | nil => simp
  | cons part parts ih =>
      have hpart := hparts part List.mem_cons_self c stack (parts.flatMap Prod.snd ++ rest)
      have hrest := ih (c := { c with children := c.children ++ [part.1] })
        fun part h => hparts part (List.mem_cons_of_mem _ h)
      rw [List.flatMap_cons, List.append_assoc, hpart, hrest]
      simp

-- A constituent is open behind its opening parenthesis, its label and its first parts. What
-- follows must not be taken for its label.
theorem readFrom_opened {label : Option String} {parts : List (Tree × List Token)}
    (hparts : ∀ part ∈ parts, ∀ (c : Constituent) (stack : List Constituent) (rest : List Token),
      readFrom (c :: stack) (part.2 ++ rest) =
        readFrom ({ c with children := c.children ++ [part.1] } :: stack) rest)
    (hfirst : label = none → BeginsUnlabelled (parts.flatMap Prod.snd ++ rest)) :
    readFrom stack
        (.opening :: (label.map Token.word).toList ++ parts.flatMap Prod.snd ++ rest) =
      readFrom (⟨label.getD "", parts.map Prod.fst⟩ :: stack) rest := by
  have hopen : readFrom stack
        (.opening :: (label.map Token.word).toList ++ parts.flatMap Prod.snd ++ rest) =
      readFrom (⟨label.getD "", []⟩ :: stack) (parts.flatMap Prod.snd ++ rest) := by
    cases label with
    | none => exact readFrom_unlabelled (hfirst rfl)
    | some label => simp
  rw [hopen, readFrom_parts hparts]
  simp

-- Within a constituent the tokens of a tree are read as that tree, whatever follows them.
theorem Spells.readFrom_eq (h : Spells t toks) :
    ∀ (c : Constituent) (stack : List Constituent) (rest : List Token),
      readFrom (c :: stack) (toks ++ rest) =
        readFrom ({ c with children := c.children ++ [t] } :: stack) rest := by
  induction h with
  | word text =>
      intro c stack rest
      simp
  | constituent label parts position hlabel hne hparts hfirst ih =>
      intro c stack rest
      have hnext (hnone : label = none) :
          BeginsUnlabelled (parts.flatMap Prod.snd ++ ([.closing position] ++ rest)) :=
        (beginsUnlabelled_append (flatMap_parts_ne_nil hne hparts) _).mpr (hfirst hnone)
      have hchildren : parts.map Prod.fst ≠ [] := by simpa using hne
      rw [List.append_assoc, readFrom_opened ih hnext, List.singleton_append,
        readFrom_closing hchildren, close_eq hlabel]

theorem Begins.readFrom_eq (hc : Begins c toks) (hnext : LabelSettled (c :: stack) rest) :
    readFrom stack (toks ++ rest) = readFrom (c :: stack) rest := by
  obtain ⟨label, parts, hlabel, hparts, hfirst, rfl, rfl⟩ := hc
  refine readFrom_opened (fun part hpart => (hparts part hpart).readFrom_eq) ?_
  rintro rfl
  by_cases hne : parts = []
  · subst hne
    exact hnext stack rfl
  · exact (beginsUnlabelled_append (flatMap_parts_ne_nil hne hparts) rest).mpr (hfirst rfl)

theorem Opens.readFrom_eq (h : Opens stack before) (hnext : LabelSettled stack rest) :
    readFrom [] (before ++ rest) = readFrom stack rest := by
  induction h generalizing rest with
  | nil => rfl
  | @cons c stack before toks hstack hc ih =>
      have houter : LabelSettled stack (toks ++ rest) := fun _ _ => hc.beginsUnlabelled rest
      rw [List.append_assoc, ih houter, hc.readFrom_eq hnext]

theorem Spells.readFrom_eq_cons (h : Spells t toks) (ht : t.isLeaf = false) :
    readFrom [] (toks ++ rest) = (readFrom [] rest).cons t := by
  obtain ⟨c, before, position, hc, hne, rfl, rfl⟩ := h.exists_close ht
  have hnext : LabelSettled [c] ([.closing position] ++ rest) := by
    rintro outer h
    obtain ⟨rfl, -⟩ := List.cons.inj h
    exact absurd rfl hne
  rw [List.append_assoc, hc.readFrom_eq hnext, List.singleton_append, readFrom_closing_last hne]

theorem SpellsTrees.readFrom_eq (h : SpellsTrees done toks) :
    readFrom [] (toks ++ rest) = (readFrom [] rest).after done := by
  obtain ⟨parts, rfl, rfl, hparts⟩ := h
  induction parts with
  | nil => rfl
  | cons part parts ih =>
      obtain ⟨hpart, ht⟩ := hparts part List.mem_cons_self
      have hrest := ih fun part h => hparts part (List.mem_cons_of_mem _ h)
      rw [List.flatMap_cons, List.append_assoc, hpart.readFrom_eq_cons ht, hrest]
      rfl

theorem Reaches.readFrom_eq (h : Reaches done stack before) (hnext : LabelSettled stack rest) :
    readFrom [] (before ++ rest) = (readFrom stack rest).after done := by
  obtain ⟨closed, opened, rfl, hclosed, hopened⟩ := h
  rw [List.append_assoc, hclosed.readFrom_eq, hopened.readFrom_eq hnext]

theorem Offends.labelSettled {error : FormatError} (h : Offends stack rest error) :
    LabelSettled stack rest := by
  cases h <;> simp [LabelSettled, BeginsUnlabelled]

theorem Offends.readFrom_eq {error : FormatError} (h : Offends stack rest error) :
    readFrom stack rest = ⟨[], some error⟩ := by
  cases h <;> simp

theorem OffendsAfter.readFrom_eq {error : FormatError} (h : OffendsAfter toks before done error) :
    readFrom [] toks = ⟨done, some error⟩ := by
  obtain ⟨stack, rest, rfl, hreach, hoffend⟩ := h
  rw [hreach.readFrom_eq hoffend.labelSettled, hoffend.readFrom_eq]
  simp [Reading.after]

-- Reading gives what there is to be read.
theorem Outcome.readFrom_eq {reading : Reading} (h : Outcome toks reading) :
    readFrom [] toks = reading := by
  cases h with
  | complete h =>
      have hread : readFrom [] (toks ++ []) = _ := h.readFrom_eq
      simpa [Reading.after] using hread
  | stopped h => exact h.readFrom_eq

end Tokens

section Progress

variable {stack : List Constituent} {before toks : List Token} {done : List Tree}

theorem Reaches.outcome_of_offends {error : FormatError} {rest : List Token}
    (h : Reaches done stack before) (hoffend : Offends stack rest error) :
    Outcome (before ++ rest) ⟨done, some error⟩ :=
  .stopped ⟨stack, rest, rfl, h, hoffend⟩

-- From wherever reading has come to, it goes on to an outcome. Each token is taken up, or it
-- offends.
theorem Reaches.outcome (hwords : .word "" ∉ toks) (h : Reaches done stack before)
    (hnext : LabelSettled stack toks) :
    Outcome (before ++ toks) ((readFrom stack toks).after done) := by
  induction stack, toks using readFrom.induct generalizing done before with
  | case1 =>
      obtain ⟨closed, opened, rfl, hclosed, hopened⟩ := h
      cases hopened
      simpa [Reading.after] using Outcome.complete hclosed
  | case2 c stack =>
      simpa [Reading.after] using h.outcome_of_offends (.unterminated c stack)
  | case3 stack label rest ih =>
      have hlabel : label ≠ "" := by
        rintro rfl
        simp at hwords
      have hsettled : LabelSettled (⟨label, []⟩ :: stack) rest := by simp [LabelSettled, hlabel]
      have hrest := ih (by simp_all) (h.push (begins_labelled hlabel)) hsettled
      simpa using hrest
  | case4 stack rest hfree ih =>
      have hfree : BeginsUnlabelled rest := by
        intro text htext
        obtain ⟨rest, rfl⟩ := List.head?_eq_some_iff.mp htext
        exact hfree text rest rfl
      have hrest := ih (by simp_all) (h.push begins_unlabelled) fun _ _ => hfree
      rw [readFrom_unlabelled hfree]
      simpa using hrest
  | case5 position rest =>
      simpa [Reading.after] using h.outcome_of_offends (.unbalanced position rest)
  | case6 c stack position rest hempty =>
      obtain ⟨label, children⟩ := c
      obtain rfl : children = [] := by simpa using hempty
      simpa [Reading.after] using
        h.outcome_of_offends (.emptyConstituent label stack position rest)
  | case7 c position rest hne ih =>
      have hne : c.children ≠ [] := by simpa using hne
      have hrest := ih (by simp_all) (h.close_last hne position) (by simp [LabelSettled])
      rw [readFrom_closing_last hne, Reading.after_cons]
      simpa using hrest
  | case8 c position rest hne outer stack ih =>
      have hne : c.children ≠ [] := by simpa using hne
      have hrest := ih (by simp_all) (h.close hne position) (by simp [LabelSettled])
      rw [readFrom_closing hne]
      simpa using hrest
  | case9 text rest =>
      simpa [Reading.after] using h.outcome_of_offends (.wordOutside text rest)
  | case10 c stack text rest ih =>
      have hword : c = ⟨"", []⟩ → BeginsUnlabelled [.word text] := by
        rintro rfl
        exact absurd rfl (hnext stack rfl text)
      have hrest := ih (by simp_all) (h.add (.word text) hword) (by simp [LabelSettled])
      simpa using hrest

theorem reaches_nil : Reaches [] [] [] :=
  ⟨[], [], rfl, .nil, .nil⟩

theorem outcome_readFrom (hwords : .word "" ∉ toks) : Outcome toks (readFrom [] toks) := by
  have h := reaches_nil.outcome hwords (by simp [LabelSettled])
  simpa [Reading.after] using h

end Progress

section Offence

variable {stack : List Constituent} {toks mid rest before before' : List Token}
  {done done' : List Tree} {error error' : FormatError}

-- It is the next token that offends, or the end if there is none.
theorem Offends.of_append (h : Offends stack (mid ++ rest) error) (hne : mid ≠ []) :
    Offends stack mid error ∧ error ≠ .unterminated := by
  obtain ⟨tok, mid, rfl⟩ := List.exists_cons_of_ne_nil hne
  cases h with
  | unbalanced position => exact ⟨.unbalanced position mid, by simp⟩
  | emptyConstituent label stack position =>
      exact ⟨.emptyConstituent label stack position mid, by simp⟩
  | wordOutside text => exact ⟨.wordOutside text mid, by simp⟩

-- No token offends before the one at which reading stops, since all that stands before it can
-- be read.
theorem OffendsAfter.length_le (h : OffendsAfter toks before done error)
    (h' : OffendsAfter toks before' done' error') : before.length ≤ before'.length := by
  obtain ⟨stack, rest, htoks, hreach, -⟩ := h
  obtain ⟨stack', rest', htoks', hreach', hoffend'⟩ := h'
  by_contra hlt
  have hbefore : before <+: toks := ⟨rest, htoks.symm⟩
  have hbefore' : before' <+: toks := ⟨rest', htoks'.symm⟩
  obtain ⟨mid, rfl⟩ := List.prefix_of_prefix_length_le hbefore' hbefore (by omega)
  have hmid : mid ≠ [] := by
    rintro rfl
    simp at hlt
  have hrest : rest' = mid ++ rest := by
    rw [htoks, List.append_assoc] at htoks'
    exact (List.append_cancel_left htoks').symm
  obtain ⟨hoffend, herror⟩ := (hrest ▸ hoffend').of_append hmid
  have hstop : readFrom [] (before' ++ mid) = ⟨done', some error'⟩ :=
    OffendsAfter.readFrom_eq ⟨stack', mid, rfl, hreach', hoffend⟩
  have hend : readFrom [] (before' ++ mid ++ []) = _ :=
    hreach.readFrom_eq (by simp [LabelSettled, BeginsUnlabelled])
  rw [List.append_nil, hstop] at hend
  cases stack with
  | nil => simp [Reading.after] at hend
  | cons c stack =>
      simp only [readFrom, Reading.after, Reading.mk.injEq, Option.some.injEq] at hend
      exact herror hend.2

end Offence

theorem word_notMem_tokens (text : String) : .word "" ∉ tokens text := by
  intro h
  have hrun : IsRun "".toList := (splits_iff.mpr rfl : Splits 0 text.toList (tokens text)).isRun h
  exact hrun.1 rfl

-- Reading takes a text for trees if its tokens are those of trees, and then gives these trees. If
-- not, it gives the trees that are complete before the first token that offends, and an error.
theorem readTrees_trees_or_first_offence (text : String) :
    (∀ toks, Splits 0 text.toList toks ↔ toks = tokens text) ∧
      ((readTrees text).error = none ↔ ∃ ts, SpellsTrees ts (tokens text)) ∧
        (∀ ts, SpellsTrees ts (tokens text) → readTrees text = ⟨ts, none⟩) ∧
          ((¬∃ ts, SpellsTrees ts (tokens text)) →
            ∃ before done error, readTrees text = ⟨done, some error⟩ ∧
              OffendsAfter (tokens text) before done error ∧
                ∀ before' done' error', OffendsAfter (tokens text) before' done' error' →
                  before.length ≤ before'.length) := by
  have houtcome : Outcome (tokens text) (readTrees text) :=
    outcome_readFrom (word_notMem_tokens text)
  have hcomplete : ∀ ts, SpellsTrees ts (tokens text) → readTrees text = ⟨ts, none⟩ :=
    fun ts h => (Outcome.complete h).readFrom_eq
  refine ⟨fun toks => splits_iff, ⟨?_, ?_⟩, hcomplete, ?_⟩
  · intro hnone
    generalize readTrees text = reading at houtcome hnone
    cases houtcome with
    | complete h => exact ⟨_, h⟩
    | stopped h => cases hnone
  · rintro ⟨ts, h⟩
    rw [hcomplete ts h]
  · intro hno
    generalize hreading : readTrees text = reading at houtcome
    cases houtcome with
    | complete h => exact absurd ⟨_, h⟩ hno
    | stopped h => exact ⟨_, _, _, rfl, h, fun _ _ _ h' => h.length_le h'⟩

end HeadPercolation.Bracketed
