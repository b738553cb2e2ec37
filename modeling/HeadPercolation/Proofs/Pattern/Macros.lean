import HeadPercolation.Proofs.Pattern.Matching

namespace HeadPercolation.Pattern

variable {context context' : Context} {terms : List Term}

section Lists

variable {terms' : List Term}

theorem runAnyOf_congr
    (h : List.Forall₂ (fun s t => s.run context = t.run context') terms terms') :
    runAnyOf context terms = runAnyOf context' terms' := by
  induction h with
  | nil => rfl
  | cons hterm _ ih =>
      funext n captures
      rw [runAnyOf, runAnyOf, hterm, ih]

theorem runSet_congr (h : List.Forall₂ (fun s t => s.run context = t.run context') terms terms') :
    runSet context terms = runSet context' terms' := by
  induction h with
  | nil => rfl
  | cons hterm _ ih =>
      funext nodes captures
      rw [runSet, runSet, hterm, ih]

theorem runSequence_congr
    (h : List.Forall₂ (fun s t => s.repetition? = t.repetition? ∧ s.run context = t.run context')
      terms terms') (anchored : Bool) :
    runSequence context anchored terms = runSequence context' anchored terms' := by
  induction h with
  | nil => rfl
  | cons hterm _ ih =>
      funext nodes captures
      rw [runSequence, runSequence, hterm.1, hterm.2, ih]

end Lists

-- The context is asked for nothing but the names in a term.
theorem Term.run_congr {term : Term} (h : ∀ name ∈ term.macros, context name = context' name) :
    term.run context = term.run context' := by
  induction term with
  | item i =>
      funext n captures
      cases i with
      | atom a => rfl
      | named name => simp only [Term.run, Item.holds, h name (by simp [Term.macros])]
  | anyOf alternatives ih =>
      rw [Term.run, Term.run]
      apply runAnyOf_congr
      rw [List.forall₂_same]
      exact fun term hm => ih term hm fun name hname => h name (mem_macrosOf.mpr ⟨term, hm, hname⟩)
  | containing term reach shape contents ih ihc =>
      have hterm := ih fun name hname => h name (List.mem_append_left _ hname)
      have hcontents : ∀ c ∈ contents, c.run context = c.run context' := fun c hm =>
        ihc c hm fun name hname =>
          h name (List.mem_append_right _ (mem_macrosOf.mpr ⟨c, hm, hname⟩))
      have hset := runSet_congr (List.forall₂_same.mpr hcontents)
      have hsequence := runSequence_congr (List.forall₂_same.mpr fun c hm => ⟨rfl, hcontents c hm⟩)
      funext n captures
      simp only [Term.run, hterm, hset, hsequence]
  | capture term name ih =>
      funext n captures
      rw [Term.run, Term.run, ih h]
  | negated term ih =>
      funext n captures
      rw [Term.run, Term.run, ih h]
  | repeated term times ih =>
      rw [Term.run, Term.run]
      exact ih h

theorem matchCaptures_congr {pattern : String} (hcompile : compile pattern = .ok terms)
    (h : ∀ name ∈ macrosOf terms, context name = context' name) (n : Node) :
    matchCaptures context pattern n = matchCaptures context' pattern n := by
  have hterms : ∀ term ∈ terms, term.run context = term.run context' := fun term hm =>
    Term.run_congr fun name hname => h name (mem_macrosOf.mpr ⟨term, hm, hname⟩)
  rw [matchCaptures, matchCaptures, hcompile]
  change (captures context terms n).mapError _ = (captures context' terms n).mapError _
  rw [captures, captures, runSet_congr (List.forall₂_same.mpr hterms)]

-- Each term of a sequence that is not repeated holds of one of the nodes.
theorem exists_holds_of_mem_languageOf {front : List Tree} (h : front ∈ languageOf context terms)
    {c : Term} (hc : c ∈ terms) (honce : c.repetition? = none) :
    ∃ s ∈ front, c.Holds context s := by
  induction terms generalizing front with
  | nil => cases hc
  | cons term terms ih =>
      obtain ⟨first, hfirst, rest, hrest, rfl⟩ := h
      rcases List.mem_cons.mp hc with rfl | hc
      · simp only [honce] at hfirst
        obtain ⟨s, hs, rfl⟩ := mem_nodesOf_none.mp hfirst
        exact ⟨s, by simp, hs⟩
      · obtain ⟨s, hs, hholds⟩ := ih hrest hc
        exact ⟨s, List.mem_append_right first hs, hholds⟩

end HeadPercolation.Pattern
