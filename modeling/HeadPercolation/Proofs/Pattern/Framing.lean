import HeadPercolation.Proofs.Pattern.Captured

namespace HeadPercolation.Pattern

-- What was captured before plays no part in a test. It stays behind what the test captures.
def Frames (test : Captures → Outcome) : Prop :=
  ∀ taken before, test (taken ++ before) = (test taken).map (Option.map (· ++ before))

def Term.Matches (context : Context) (term : Term) (n : Node) : Prop :=
  ∃ taken, term.run context n [] = .ok (some taken)

-- A remainder with earlier captures behind its own.
def Remainder.append (r : Remainder) (before : Captures) : Remainder :=
  ⟨r.nodes, r.captures ++ before⟩

section Shares

variable {test : Node → Captures → Outcome} {nodes : List Node}

theorem shares_append (htest : ∀ n ∈ nodes, Frames (test n)) (taken before : Captures) :
    shares test nodes (taken ++ before) =
      (shares test nodes taken).map (List.map (·.append before)) := by
  induction nodes generalizing taken with
  | nil => rfl
  | cons n ns ih =>
      obtain ⟨hn, hns⟩ := List.forall_mem_cons.mp htest
      rw [shares, shares, hn taken before]
      cases test n taken with
      | error e => rfl
      | ok outcome =>
          cases outcome with
          | none => rfl
          | some after =>
              have hrest := ih hns after
              simp only [Except.map, Option.map, bind, Except.bind] at hrest ⊢
              rw [hrest]
              cases shares test ns after with
              | error e => rfl
              | ok rs => simp [pure, Except.pure, Remainder.append]

theorem oneShare_append (htest : ∀ n ∈ nodes, Frames (test n)) (taken before : Captures) :
    oneShare test nodes (taken ++ before) =
      (oneShare test nodes taken).map (List.map (·.append before)) := by
  cases nodes with
  | nil => rfl
  | cons n ns =>
      rw [oneShare, oneShare, htest n List.mem_cons_self taken before]
      cases test n taken with
      | error e => rfl
      | ok outcome => cases outcome <;> rfl

theorem sharesOf_append (times : Option Repetition) (htest : ∀ n ∈ nodes, Frames (test n))
    (taken before : Captures) :
    sharesOf times test nodes (taken ++ before) =
      (sharesOf times test nodes taken).map (List.map (·.append before)) := by
  cases times with
  | none => exact oneShare_append htest taken before
  | some times =>
      cases times with
      | optional =>
          rw [sharesOf, sharesOf, oneShare_append htest]
          cases oneShare test nodes taken with
          | error e => rfl
          | ok rs => simp [Except.map, Remainder.append]
      | zeroOrMore => exact shares_append htest taken before
      | oneOrMore =>
          rw [sharesOf, sharesOf, shares_append htest]
          cases shares test nodes taken with
          | error e => rfl
          | ok rs => simp [Except.map, List.map_dropLast]

end Shares

section Runs

variable {context : Context} {terms : List Term} {nodes : List Node}

theorem runAnyOf_frames {n : Node} (h : ∀ term ∈ terms, Frames (term.run context n)) :
    Frames (runAnyOf context terms n) := by
  intro taken before
  rw [runAnyOf_eq, runAnyOf_eq]
  exact findSomeM?_map_result (· ++ before) fun term hm => h term hm taken before

theorem runSet_frames (h : ∀ term ∈ terms, ∀ n, Frames (term.run context n)) :
    Frames (runSet context terms nodes) := by
  induction terms with
  | nil => exact fun taken before => rfl
  | cons term terms ih =>
      obtain ⟨hterm, hterms⟩ := List.forall_mem_cons.mp h
      intro taken before
      simp only [runSet, findSomeM?_map_result (· ++ before) fun n _ => hterm n taken before]
      cases nodes.findSomeM? fun n => term.run context n taken with
      | error e => rfl
      | ok outcome =>
          cases outcome with
          | none => rfl
          | some after => exact ih hterms after before

theorem runSequence_frames (anchored : Bool)
    (h : ∀ term ∈ terms, ∀ n, Frames (term.run context n)) :
    Frames (runSequence context anchored terms nodes) := by
  induction terms generalizing nodes with
  | nil =>
      intro taken before
      simp only [runSequence]
      split <;> rfl
  | cons term terms ih =>
      obtain ⟨hterm, hterms⟩ := List.forall_mem_cons.mp h
      intro taken before
      simp only [runSequence, sharesOf_append _ fun n _ => hterm n]
      cases sharesOf term.repetition? (term.run context) nodes taken with
      | error e => rfl
      | ok rs =>
          simp only [Except.map, bind, Except.bind, findSomeM?_map]
          exact findSomeM?_map_result (· ++ before) fun r _ => ih hterms r.captures before

theorem runContents_frames (shape : Shape)
    (h : ∀ term ∈ terms, ∀ n, Frames (term.run context n)) :
    Frames (runContents context terms shape nodes) := by
  cases shape with
  | set => exact runSet_frames h
  | sequence anchored => exact runSequence_frames anchored h

-- The captures before a test do not decide whether a node matches, and a match leaves them as they
-- were.
theorem Term.run_frames (context : Context) (term : Term) (n : Node) :
    Frames (term.run context n) := by
  induction term generalizing n with
  | item i =>
      intro taken before
      simp only [Term.run]
      cases i.holds context n.tree with
      | error e => rfl
      | ok value => cases value <;> rfl
  | anyOf alternatives ih =>
      rw [Term.run]
      exact runAnyOf_frames fun term hm => ih term hm n
  | containing term reach shape contents ih ihc =>
      intro taken before
      simp only [Term.run, ih n taken before]
      cases term.run context n taken with
      | error e => rfl
      | ok outcome =>
          cases outcome with
          | none => rfl
          | some after =>
              have hcontents (nodes : List Node) :
                  Frames (runContents context contents shape nodes) := runContents_frames shape ihc
              cases shape with
              | set => exact findSomeM?_map_result _ fun nodes _ => hcontents nodes after before
              | sequence anchored =>
                  exact findSomeM?_map_result _ fun nodes _ => hcontents nodes after before
  | capture term name ih =>
      intro taken before
      simp only [Term.run, ih n taken before]
      cases term.run context n taken with
      | error e => rfl
      | ok outcome => cases outcome <;> rfl
  | negated term ih =>
      intro taken before
      simp only [Term.run, ih n taken before]
      cases term.run context n taken with
      | error e => rfl
      | ok outcome => cases outcome <;> rfl
  | repeated term times ih =>
      rw [Term.run]
      exact ih n

end Runs

section Frames

variable {test : Captures → Outcome} {before after : Captures}

theorem Frames.eq_ok_none_iff (h : Frames test) : test before = .ok none ↔ test [] = .ok none := by
  have hbefore := h [] before
  rw [List.nil_append] at hbefore
  rw [hbefore]
  cases test [] with
  | error e => simp [Except.map]
  | ok captured => cases captured <;> simp [Except.map]

theorem Frames.eq_ok_some_iff (h : Frames test) :
    test before = .ok (some after) ↔
      ∃ taken, test [] = .ok (some taken) ∧ after = taken ++ before := by
  have hbefore := h [] before
  rw [List.nil_append] at hbefore
  rw [hbefore]
  cases test [] with
  | error e => simp [Except.map]
  | ok captured => cases captured <;> simp [Except.map, eq_comm]

theorem Term.matches_iff {context : Context} {term : Term} {n : Node} (before : Captures) :
    term.Matches context n ↔ ∃ after, term.run context n before = .ok (some after) := by
  have hrun (after : Captures) : term.run context n before = .ok (some after) ↔
      ∃ taken, term.run context n [] = .ok (some taken) ∧ after = taken ++ before :=
    (term.run_frames context n).eq_ok_some_iff
  simp only [hrun]
  constructor
  · rintro ⟨taken, hrun⟩
    exact ⟨taken ++ before, taken, hrun, rfl⟩
  · rintro ⟨-, taken, hrun, -⟩
    exact ⟨taken, hrun⟩

end Frames

end HeadPercolation.Pattern
