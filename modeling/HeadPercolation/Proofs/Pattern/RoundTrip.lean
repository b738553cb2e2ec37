import HeadPercolation.Proofs.Pattern.Writing

namespace HeadPercolation.Pattern

variable {place : Place} {terms contents : List Term} {core : Term} {name : Option String}
  {draft : Draft} {stage : Stage} {shape : Shape} {e : Element} {gs content : List Group}
  {alternatives : List (List Group)} {g : Group} {s s' : State}

-- Whatever is read from the element can be written.
def Element.IsWritten : Element → Prop
  | token t => t.IsLegible
  | sequence content =>
    ∀ result, content = .ok result → ∀ term ∈ result.terms, term.IsWritten .sequence
  | set content => ∀ result, content = .ok result → ∀ term ∈ result.terms, term.IsWritten .set
  | choice alternatives =>
    ∀ terms, alternatives = .ok terms → terms ≠ [] ∧ ∀ term ∈ terms, term.IsWritten .alternative

namespace Element.IsWritten

theorem leads (he : e.IsWritten) (h : readCore e = .ok (core, name)) (place : Place)
    (negated : Bool) :
    Leads place (Draft.term ⟨negated, core, name⟩).pieces (.afterItem ⟨negated, core, name⟩) := by
  rcases isItem_or_isChoice_of_readCore h with ⟨text, rfl⟩ | ⟨alternatives, rfl⟩
  · have hspell : Spelling (Draft.term ⟨false, core, name⟩).pieces [.token (.item text)] := by
      rw [pieces_of_readItem he.closed h]
      exact .token he.tokens_text (by simp) (by simp) (by simp)
    exact leads_afterItem hspell h place negated
  · obtain ⟨terms, hterms, heq⟩ := map_eq_ok.mp h
    cases heq
    obtain ⟨hne, hwritten⟩ := he terms hterms
    obtain ⟨g, hspell, hread⟩ := exists_spelling_choice hne hwritten
    exact leads_afterItem hspell hread place negated

theorem forall_contents (he : e.IsWritten) (h : readContents e = .ok (shape, contents)) :
    ∀ c ∈ contents, c.IsWritten shape.content := by
  unfold readContents at h
  split at h
  · obtain ⟨result, hresult, heq⟩ := map_eq_ok.mp h
    cases heq
    exact he result hresult
  · obtain ⟨result, hresult, heq⟩ := map_eq_ok.mp h
    cases heq
    exact he result hresult
  · cases h
  · -- A single item is the content of a set.
    obtain ⟨⟨core, name⟩, hcore, heq⟩ := bind_eq_ok.mp h
    cases heq
    rw [List.forall_mem_singleton]
    exact (he.leads hcore .set false).isWritten (Or.inl rfl)

end Element.IsWritten

-- What was read last can be written as far as it has been read.
def Stage.IsWritten (place : Place) : Stage → Prop
  | between => True
  | afterNegation => True
  | afterItem draft => Leads place draft.term.pieces (.afterItem draft)
  | afterReach draft _ => Leads place draft.term.pieces (.afterItem draft)
  | afterContents draft => Leads place draft.term.pieces (.afterContents draft)
  | finished => True

structure State.IsWritten (place : Place) (s : State) : Prop where
  done : ∀ term ∈ s.done, term.IsWritten place
  stage : s.stage.IsWritten place

section Steps

theorem start_isWritten {negated : Bool} (he : e.IsWritten)
    (hterms : ∀ term ∈ terms, term.IsWritten place) (h : start place terms negated e = .ok s) :
    s.IsWritten place := by
  unfold start at h
  split at h
  · split at h
    · cases h
      exact ⟨hterms, trivial⟩
    · cases h
  · obtain ⟨⟨core, name⟩, hcore, heq⟩ := bind_eq_ok.mp h
    cases heq
    exact ⟨hterms, he.leads hcore place negated⟩

theorem continueAfter_isWritten (he : e.IsWritten)
    (hterms : ∀ term ∈ terms, term.IsWritten place) (hdraft : Leads place draft.term.pieces stage)
    (hstage : stage = .afterItem draft ∨ stage = .afterContents draft)
    (h : continueAfter place terms draft e = .ok s) : s.IsWritten place := by
  have hlast := forall_mem_concat hterms (hdraft.isWritten hstage)
  unfold continueAfter at h
  split at h
  · split at h
    · cases h
    · rename_i times hplace
      cases h
      exact ⟨forall_mem_concat hterms (hdraft.repeated_isWritten hstage hplace times), trivial⟩
  · cases h
    exact ⟨hlast, trivial⟩
  · exact start_isWritten he hlast h

theorem step_isWritten (he : e.IsWritten) (hs : s.IsWritten place) (h : step place s e = .ok s') :
    s'.IsWritten place := by
  obtain ⟨done, stage⟩ := s
  obtain ⟨hdone, hstage⟩ := hs
  simp only [step] at hdone hstage h
  split at h
  · cases h
    exact ⟨hdone, trivial⟩
  · exact start_isWritten he hdone h
  · exact start_isWritten he hdone h
  · cases h
    exact ⟨hdone, hstage⟩
  · exact continueAfter_isWritten he hdone hstage (Or.inl rfl) h
  · cases h
    exact ⟨hdone, hstage⟩
  · obtain ⟨⟨shape, contents⟩, hcontents, heq⟩ := bind_eq_ok.mp h
    cases heq
    exact ⟨hdone, Leads.containing hstage _ (he.forall_contents hcontents)⟩
  · exact continueAfter_isWritten he hdone hstage (Or.inr rfl) h
  · cases h

theorem finish_isWritten {result : Terms} (hs : s.IsWritten place) (h : s.finish = .ok result) :
    ∀ term ∈ result.terms, term.IsWritten place := by
  obtain ⟨done, stage⟩ := s
  obtain ⟨hdone, hstage⟩ := hs
  cases stage with
  | between =>
      cases h
      exact hdone
  | afterNegation => cases h
  | afterItem draft =>
      cases h
      exact forall_mem_concat hdone (Leads.isWritten hstage (Or.inl rfl))
  | afterReach draft reach => cases h
  | afterContents draft =>
      cases h
      exact forall_mem_concat hdone (Leads.isWritten hstage (Or.inr rfl))
  | finished =>
      cases h
      exact hdone

theorem readTerms_isWritten {result : Terms} (hgs : ∀ g ∈ gs, g.element.IsWritten)
    (h : readTerms place (elementsOf gs) = .ok result) :
    ∀ term ∈ result.terms, term.IsWritten place := by
  have helements : ∀ e ∈ elementsOf gs, e.IsWritten := by
    rw [elementsOf_eq_map, List.forall_mem_map]
    exact hgs
  obtain ⟨s, hfold, hfinish⟩ := bind_eq_ok.mp h
  have hbegin : State.IsWritten place ⟨[], .between⟩ := ⟨by simp, trivial⟩
  exact finish_isWritten
    (foldlM_preserves (fun e he _ _ => step_isWritten (helements e he)) hfold hbegin) hfinish

end Steps

section Groups

theorem readAlternatives_isWritten (h : ∀ gs ∈ alternatives, ∀ g ∈ gs, g.element.IsWritten)
    (hread : readAlternatives alternatives = .ok terms) :
    ∀ term ∈ terms, term.IsWritten .alternative := by
  intro term hterm
  obtain ⟨gs, hgs, anchored, hresult⟩ := exists_of_readAlternatives hread hterm
  exact readTerms_isWritten (h gs hgs) hresult term List.mem_cons_self

theorem readAlternatives_ne_nil (hne : alternatives ≠ [])
    (h : readAlternatives alternatives = .ok terms) : terms ≠ [] := by
  obtain ⟨gs, rest, rfl⟩ := List.exists_cons_of_ne_nil hne
  obtain ⟨term, -, h⟩ := bind_eq_ok.mp h
  obtain ⟨terms, -, heq⟩ := bind_eq_ok.mp h
  cases heq
  exact List.cons_ne_nil term terms

theorem enclose_isWritten {bracket : Bracket} (hcontent : ∀ g ∈ content, g.element.IsWritten)
    (h : Group.enclose bracket content = .ok g) : g.element.IsWritten := by
  cases bracket with
  | square =>
      cases h
      exact fun result hread => readTerms_isWritten hcontent hread
  | curly =>
      cases h
      exact fun result hread => readTerms_isWritten hcontent hread
  | round =>
      simp only [Group.enclose] at h
      split at h
      · cases h
      · cases h
        have halternatives : ∀ gs ∈ splitAtBars content, ∀ g ∈ gs, g.element.IsWritten :=
          fun gs hgs g hg => hcontent g (mem_of_mem_splitAtBars hgs hg)
        rw [Group.element]
        exact fun terms hread => ⟨readAlternatives_ne_nil (splitAtBars_ne_nil content) hread,
          readAlternatives_isWritten halternatives hread⟩

theorem groups_isWritten {ts : List Token} (hts : ∀ t ∈ ts, t.IsLegible)
    (h : groups ts = .ok gs) : ∀ g ∈ gs, g.element.IsWritten := by
  have hnests := nests_of_groups h
  clear h
  induction hnests with
  | nil => simp
  | token _ _ _ ih =>
      obtain ⟨ht, hts⟩ := List.forall_mem_cons.mp hts
      exact List.forall_mem_cons.mpr ⟨ht, ih hts⟩
  | enclosed bracket _ hg _ ihinner ih =>
      rw [List.cons_append, List.forall_mem_cons, List.forall_mem_append, List.forall_mem_cons]
        at hts
      obtain ⟨-, hinner, -, hrest⟩ := hts
      exact List.forall_mem_cons.mpr ⟨enclose_isWritten (ihinner hinner) hg, ih hrest⟩

end Groups

-- The terms of a pattern, written as text, are a pattern for the same terms.
theorem compile_writtenTerms {pattern : String} (h : compile pattern = .ok terms) :
    compile (writtenTerms terms) = .ok terms := by
  obtain ⟨gs, hparse, hterms⟩ := bind_eq_ok.mp h
  obtain ⟨ts, htokens, hgroups⟩ := bind_eq_ok.mp hparse
  obtain ⟨result, hread, rfl⟩ := map_eq_ok.mp hterms
  have hgs := groups_isWritten (isLegible_of_mem_tokens htokens) hgroups
  have hwrites := writes_of_forall (readTerms_isWritten hgs hread)
  obtain ⟨gs', hspell, hread'⟩ := hwrites.exists_readTerms
  have htokens' : tokens (writtenTerms result.terms) = .ok (tokensOfEach gs') :=
    hspell.tokenizes.tokens_intercalate
  have hparse' : parse (writtenTerms result.terms) = .ok gs' :=
    (bind_of_eq_ok htokens').trans hspell.areFound.groups_eq_ok
  rw [compile, bind_of_eq_ok hparse', termsOf, hread']
  rfl

theorem compile_writtenTerms_clause :
    ∃ terms, compile "!VP=clause>>[(NP|\"a.b\">C)* . $]" = .ok terms ∧
      writtenTerms terms = "! VP=clause >> [ ( NP | \"a . b\" > \x7b C \x7d ) * . $ ]" ∧
      compile (writtenTerms terms) = .ok terms := by
  have hcompile : compile "!VP=clause>>[(NP|\"a.b\">C)* . $]" = .ok
      [.negated (.capture (.containing (.item (.atom (.tag "VP"))) .anywhere (.sequence true)
        [.repeated (.anyOf [.item (.atom (.tag "NP")),
          .containing (.item (.atom (.words "a . b"))) .children .set
            [.item (.atom (.tag "C"))]]) .zeroOrMore,
        .item (.atom .any)]) "clause")] := by
    decide +kernel
  exact ⟨_, hcompile, by decide +kernel, compile_writtenTerms hcompile⟩

end HeadPercolation.Pattern
