import HeadPercolation.Proofs.Pattern.Written

namespace HeadPercolation.Pattern

variable {place : Place} {terms contents : List Term} {term core : Term} {name : Option String}
  {draft : Draft} {stage stage' : Stage} {shape : Shape} {e : Element}
  {pieces pieces' : List String} {gs gs' : List Group} {g : Group} {s s' : State}

theorem forall_mem_concat {α : Type} {p : α → Prop} {xs : List α} {x : α} (h : ∀ y ∈ xs, p y)
    (hx : p x) : ∀ y ∈ xs ++ [x], p y := by
  rw [List.forall_mem_append, List.forall_mem_singleton]
  exact ⟨h, hx⟩

theorem elementsOf_eq_map (gs : List Group) : elementsOf gs = gs.map Group.element := by
  induction gs with
  | nil => rfl
  | cons g gs ih => rw [elementsOf, List.map_cons, ih]

def State.after (place : Place) (s : State) (gs : List Group) : Except FormError State :=
  (elementsOf gs).foldlM (step place) s

theorem State.after_cons (h : step place s g.element = .ok s') (gs : List Group) :
    s.after place (g :: gs) = s'.after place gs := by
  rw [State.after, elementsOf, List.foldlM_cons, bind_of_eq_ok h, State.after]

theorem State.after_append (h : s.after place gs = .ok s') (gs' : List Group) :
    s.after place (gs ++ gs') = s'.after place gs' := by
  have hfold : (elementsOf gs).foldlM (step place) s = .ok s' := h
  rw [State.after, elementsOf_eq_map, List.map_append, ← elementsOf_eq_map, ← elementsOf_eq_map,
    List.foldlM_append, bind_of_eq_ok hfold, State.after]

-- The list may end here, with all its terms complete.
abbrev State.Ends (s : State) (terms : List Term) : Prop :=
  s.finish = .ok ⟨terms, false⟩

section Steps

theorem start_of_readCore (h : readCore e = .ok (core, name)) (place : Place)
    (done : List Term) (negated : Bool) :
    start place done negated e = .ok ⟨done, .afterItem ⟨negated, core, name⟩⟩ := by
  unfold start
  split
  · cases h
  · rw [h]
    rfl

theorem isItem_or_isChoice_of_readCore (h : readCore e = .ok (core, name)) :
    (∃ text, e = .token (.item text)) ∨ ∃ alternatives, e = .choice alternatives := by
  cases e with
  | token t =>
      cases t with
      | item text => exact Or.inl ⟨text, rfl⟩
      | _ => cases h
  | choice alternatives => exact Or.inr ⟨alternatives, rfl⟩
  | _ => cases h

-- The first element of a term completes the term before it.
theorem step_of_readCore (h : readCore e = .ok (core, name)) (place : Place)
    (hs : s.Ends terms) : step place s e = .ok ⟨terms, .afterItem ⟨false, core, name⟩⟩ := by
  have hstart := start_of_readCore h place terms false
  obtain ⟨done, stage⟩ := s
  rcases isItem_or_isChoice_of_readCore h with ⟨text, rfl⟩ | ⟨alternatives, rfl⟩ <;>
    cases stage <;> cases hs <;> exact hstart

theorem after_of_readCore (h : readCore g.element = .ok (core, name)) (place : Place) :
    State.after place ⟨[], .between⟩ [g] = .ok ⟨[], .afterItem ⟨false, core, name⟩⟩ :=
  State.after_cons (step_of_readCore h place rfl) []

theorem step_negation (place : Place) (hs : s.Ends terms) :
    step place s (.token .negation) = .ok ⟨terms, .afterNegation⟩ := by
  obtain ⟨done, stage⟩ := s
  cases stage <;> cases hs <;> rfl

theorem step_afterNegation (h : readCore e = .ok (core, name)) (place : Place)
    (done : List Term) :
    step place ⟨done, .afterNegation⟩ e = .ok ⟨done, .afterItem ⟨true, core, name⟩⟩ :=
  start_of_readCore h place done true

theorem step_afterReach (h : readContents e = .ok (shape, contents)) (place : Place)
    (done : List Term) (draft : Draft) (reach : Reach) :
    step place ⟨done, .afterReach draft reach⟩ e =
      .ok ⟨done, .afterContents (draft.containing reach shape contents)⟩ := by
  cases e with
  | token t =>
      cases t with
      | arrow => cases h
      | _ => cases reach <;> exact bind_of_eq_ok h
  | _ => cases reach <;> exact bind_of_eq_ok h

theorem step_finish (hs : s.Ends terms) :
    step .sequence s (.token .finish) = .ok ⟨terms, .finished⟩ := by
  obtain ⟨done, stage⟩ := s
  cases stage <;> cases hs <;> rfl

end Steps

-- The pieces are read as terms, behind any complete ones.
def Writes (place : Place) (pieces : List String) (terms : List Term) : Prop :=
  ∃ gs, Spelling pieces gs ∧ ∀ (s : State) (before : List Term), s.Ends before →
    ∃ s' : State, s.after place gs = .ok s' ∧ s'.Ends (before ++ terms)

-- The pieces are read as the part of a term that the stage tells of, behind any complete terms.
def Leads (place : Place) (pieces : List String) (stage : Stage) : Prop :=
  ∃ gs, Spelling pieces gs ∧ ∀ (s : State) (before : List Term), s.Ends before →
    s.after place gs = .ok ⟨before, stage⟩

def Term.IsWritten (place : Place) (term : Term) : Prop :=
  Writes place term.pieces [term]

section Terms

theorem Writes.append (h : Writes place pieces terms) (h' : Writes place pieces' contents) :
    Writes place (pieces ++ pieces') (terms ++ contents) := by
  obtain ⟨gs, hspell, hread⟩ := h
  obtain ⟨gs', hspell', hread'⟩ := h'
  refine ⟨gs ++ gs', hspell.append hspell', fun s before hs => ?_⟩
  obtain ⟨s', hafter, hs'⟩ := hread s before hs
  rw [State.after_append hafter, ← List.append_assoc]
  exact hread' s' (before ++ terms) hs'

theorem writes_of_forall (h : ∀ term ∈ terms, term.IsWritten place) :
    Writes place (piecesOfEach terms).flatten terms := by
  induction terms with
  | nil => exact ⟨[], .nil, fun s before hs => ⟨s, rfl, by rwa [List.append_nil]⟩⟩
  | cons term terms ih =>
      obtain ⟨hterm, hterms⟩ := List.forall_mem_cons.mp h
      exact hterm.append (ih hterms)

theorem Writes.exists_readTerms (h : Writes place pieces terms) :
    ∃ gs, Spelling pieces gs ∧ readTerms place (elementsOf gs) = .ok ⟨terms, false⟩ := by
  obtain ⟨gs, hspell, hread⟩ := h
  obtain ⟨s', hafter, hs'⟩ := hread ⟨[], .between⟩ [] rfl
  exact ⟨gs, hspell, (bind_of_eq_ok hafter).trans hs'⟩

theorem Writes.exists_readTerms_anchored (h : Writes .sequence pieces terms) :
    ∃ gs, Spelling (pieces ++ [Token.finish.text]) gs ∧
      readTerms .sequence (elementsOf gs) = .ok ⟨terms, true⟩ := by
  obtain ⟨gs, hspell, hread⟩ := h
  obtain ⟨s', hafter, hs'⟩ := hread ⟨[], .between⟩ [] rfl
  have hfinish : Spelling [Token.finish.text] [.token .finish] :=
    .token rfl (by simp) (by simp) (by simp)
  have hlast := (State.after_append hafter _).trans
    (State.after_cons (g := .token .finish) (step_finish hs') [])
  exact ⟨gs ++ [.token .finish], hspell.append hfinish, bind_of_eq_ok hlast⟩

-- A draft may be followed by the next term or by a repetition.
theorem Leads.isWritten (h : Leads place draft.term.pieces stage)
    (hstage : stage = .afterItem draft ∨ stage = .afterContents draft) :
    draft.term.IsWritten place := by
  obtain ⟨gs, hspell, hread⟩ := h
  refine ⟨gs, hspell, fun s before hs => ⟨⟨before, stage⟩, hread s before hs, ?_⟩⟩
  rcases hstage with rfl | rfl <;> rfl

theorem Leads.repeated_isWritten (h : Leads place draft.term.pieces stage)
    (hstage : stage = .afterItem draft ∨ stage = .afterContents draft) (hplace : place ≠ .set)
    (times : Repetition) : (Term.repeated draft.term times).IsWritten place := by
  have hsign : Spelling [times.sign] [.token (.repetition times)] :=
    .token (t := .repetition times) (tokens_text (by simp)) (by simp) (by simp) (by simp)
  obtain ⟨gs, hspell, hread⟩ := h
  refine ⟨gs ++ [.token (.repetition times)], hspell.append hsign, fun s before hs =>
    ⟨⟨before ++ [.repeated draft.term times], .between⟩, ?_, rfl⟩⟩
  have hrepeat : step place ⟨before, stage⟩ (.token (.repetition times)) =
      .ok ⟨before ++ [.repeated draft.term times], .between⟩ := by
    rcases hstage with rfl | rfl <;> exact if_neg hplace
  exact (State.after_append (hread s before hs) _).trans (State.after_cons hrepeat [])

-- A negation is followed by the item, with its name.
theorem leads_afterItem (hspell : Spelling (Draft.term ⟨false, core, name⟩).pieces [g])
    (h : readCore g.element = .ok (core, name)) (place : Place) (negated : Bool) :
    Leads place (Draft.term ⟨negated, core, name⟩).pieces
      (.afterItem ⟨negated, core, name⟩) := by
  cases negated with
  | false =>
      exact ⟨[g], hspell, fun s before hs => State.after_cons (step_of_readCore h place hs) []⟩
  | true =>
      have hnegation : Spelling [Token.negation.text] [.token .negation] :=
        .token rfl (by simp) (by simp) (by simp)
      refine ⟨[.token .negation, g], hnegation.append hspell, fun s before hs => ?_⟩
      exact (State.after_cons (step_negation place hs) _).trans
        (State.after_cons (step_afterNegation h place before) [])

end Terms

section Contents

theorem exists_spelling_sign (reach : Reach) (place : Place) (draft : Draft) :
    ∃ gs, Spelling [reach.sign] gs ∧ ∀ before,
      State.after place ⟨before, .afterItem draft⟩ gs = .ok ⟨before, .afterReach draft reach⟩ := by
  have harrow : Spelling [Reach.children.sign] [.token .arrow] :=
    .token (t := .arrow) rfl (by simp) (by simp) (by simp)
  cases reach with
  | children => exact ⟨[.token .arrow], harrow, fun before => rfl⟩
  | anywhere =>
      have harrows := harrow.append harrow
      have htokens : tokens Reach.anywhere.sign = .ok [.arrow, .arrow] := rfl
      have hpiece : Tokenizes [Reach.anywhere.sign] [.arrow, .arrow] := .cons htokens .nil
      refine ⟨[.token .arrow, .token .arrow], ?_, fun before => rfl⟩
      exact ⟨hpiece, harrows.areFound, harrows.bar_not_mem⟩

-- The place of the terms in brackets.
def Shape.content : Shape → Place
  | set => .set
  | sequence _ => .sequence

-- All contents are read from one group.
theorem exists_spelling_contents (h : ∀ c ∈ contents, c.IsWritten shape.content) :
    ∃ g, Spelling (shape.pieces (piecesOfEach contents).flatten) [g] ∧
      readContents g.element = .ok (shape, contents) := by
  have hwrites := writes_of_forall h
  cases shape with
  | set =>
      obtain ⟨gs, hspell, hread⟩ := hwrites.exists_readTerms
      have hread' : readTerms .set (elementsOf gs) = .ok ⟨contents, false⟩ := hread
      refine ⟨.set gs, .enclose .curly hspell.tokenizes hspell.areFound rfl, ?_⟩
      rw [Group.element, readContents, hread']
      rfl
  | sequence anchored =>
      have hanchored : ∃ gs,
          Spelling ((piecesOfEach contents).flatten ++
            if anchored then [Token.finish.text] else []) gs ∧
          readTerms .sequence (elementsOf gs) = .ok ⟨contents, anchored⟩ := by
        cases anchored with
        | false =>
            rw [if_neg Bool.false_ne_true, List.append_nil]
            exact hwrites.exists_readTerms
        | true => exact hwrites.exists_readTerms_anchored
      obtain ⟨gs, hspell, hread⟩ := hanchored
      refine ⟨.sequence gs, .enclose .square hspell.tokenizes hspell.areFound rfl, ?_⟩
      rw [Group.element, readContents, hread]
      rfl

-- Contents are read behind an item and the sign that announces them.
theorem Leads.containing (h : Leads place draft.term.pieces (.afterItem draft)) (reach : Reach)
    (hcontents : ∀ c ∈ contents, c.IsWritten shape.content) :
    Leads place (draft.containing reach shape contents).term.pieces
      (.afterContents (draft.containing reach shape contents)) := by
  obtain ⟨gs, hspell, hread⟩ := h
  obtain ⟨signs, hsigns, hreach⟩ := exists_spelling_sign reach place draft
  obtain ⟨g, hg, hcontents⟩ := exists_spelling_contents hcontents
  refine ⟨gs ++ (signs ++ [g]), ?_, fun s before hs => ?_⟩
  · rw [Draft.pieces_containing]
    exact hspell.append (hsigns.append hg)
  · have hlast := step_afterReach hcontents place before draft reach
    rw [State.after_append (hread s before hs), State.after_append (hreach before),
      State.after_cons hlast]
    rfl

end Contents

section Alternatives

theorem exists_readAlternative (h : term.IsWritten .alternative) :
    ∃ gs, gs ≠ [] ∧ Spelling term.pieces gs ∧ readAlternative (elementsOf gs) = .ok term := by
  obtain ⟨gs, hspell, hread⟩ := Writes.exists_readTerms h
  refine ⟨gs, ?_, hspell, bind_of_eq_ok hread⟩
  rintro rfl
  cases hread

theorem exists_readAlternatives (h : ∀ term ∈ terms, term.IsWritten .alternative) :
    ∃ alternatives, (∀ gs ∈ alternatives, gs ≠ [] ∧ .token .bar ∉ gs) ∧
      List.Forall₂ Spelling (piecesOfEach terms) alternatives ∧
      readAlternatives alternatives = .ok terms := by
  induction terms with
  | nil => exact ⟨[], by simp, .nil, rfl⟩
  | cons term terms ih =>
      obtain ⟨hterm, hterms⟩ := List.forall_mem_cons.mp h
      obtain ⟨gs, hne, hspell, hread⟩ := exists_readAlternative hterm
      obtain ⟨alternatives, hnes, hspells, hreads⟩ := ih hterms
      have hnes' := List.forall_mem_cons.mpr ⟨⟨hne, hspell.bar_not_mem⟩, hnes⟩
      refine ⟨gs :: alternatives, hnes', .cons hspell hspells, ?_⟩
      rw [readAlternatives, bind_of_eq_ok hread, bind_of_eq_ok hreads]
      rfl

theorem exists_spelling_choice (hne : terms ≠ [])
    (h : ∀ term ∈ terms, term.IsWritten .alternative) :
    ∃ g, Spelling (Draft.term ⟨false, .anyOf terms, none⟩).pieces [g] ∧
      readCore g.element = .ok (.anyOf terms, none) := by
  obtain ⟨alternatives, hnes, hspells, hread⟩ := exists_readAlternatives h
  have halternatives : alternatives ≠ [] := by
    rintro rfl
    cases hread
    exact hne rfl
  have henclose : Group.enclose .round ([.token .bar].intercalate alternatives) =
      .ok (.choice alternatives) := by
    have hsplit := splitAtBars_intercalate halternatives fun gs hgs => (hnes gs hgs).2
    simp only [Group.enclose, hsplit, List.any_eq_true, List.isEmpty_iff]
    refine if_neg ?_
    rintro ⟨gs, hgs, hempty⟩
    exact (hnes gs hgs).1 hempty
  obtain ⟨htokenizes, hfound⟩ := spells_intercalate hspells
  refine ⟨.choice alternatives, .enclose .round htokenizes hfound henclose, ?_⟩
  rw [Group.element, readCore, hread]
  rfl

-- Each alternative is the only term of its part.
theorem exists_of_readAlternatives {alternatives : List (List Group)}
    (h : readAlternatives alternatives = .ok terms) (hterm : term ∈ terms) :
    ∃ gs ∈ alternatives, ∃ anchored,
      readTerms .alternative (elementsOf gs) = .ok ⟨[term], anchored⟩ := by
  induction alternatives generalizing terms with
  | nil =>
      cases h
      cases hterm
  | cons gs alternatives ih =>
      obtain ⟨first, hfirst, h⟩ := bind_eq_ok.mp h
      obtain ⟨others, hothers, heq⟩ := bind_eq_ok.mp h
      cases heq
      rcases List.mem_cons.mp hterm with rfl | hmem
      · obtain ⟨result, hresult, hsingle⟩ := bind_eq_ok.mp hfirst
        split at hsingle
        · cases hsingle
          exact ⟨gs, List.mem_cons_self, _, hresult⟩
        · cases hsingle
      · obtain ⟨gs', hgs', hread⟩ := ih hothers hmem
        exact ⟨gs', List.mem_cons_of_mem gs hgs', hread⟩

end Alternatives

end HeadPercolation.Pattern
