import HeadPercolation.Proofs.Pattern.Writing

namespace HeadPercolation.Pattern

variable {place : Place} {before done : List Term} {core : Term} {name : Option String}
  {draft : Draft} {reach : Reach} {e : Element} {gs gs' : List Group} {s s' : State}

-- What an element adds to what has been read, by what the element is and what stands before it.
inductive Steps (place : Place) : State → Element → State → Prop
  | negation {s : State} {before : List Term} (h : s.Ends before) :
      Steps place s (.token .negation) ⟨before, .afterNegation⟩
  | core {s : State} {e : Element} {before : List Term} {core : Term} {name : Option String}
      (h : s.Ends before) (hcore : readCore e = .ok (core, name)) :
      Steps place s e ⟨before, .afterItem ⟨false, core, name⟩⟩
  | negated {e : Element} {done : List Term} {core : Term} {name : Option String}
      (hcore : readCore e = .ok (core, name)) :
      Steps place ⟨done, .afterNegation⟩ e ⟨done, .afterItem ⟨true, core, name⟩⟩
  | arrow (done : List Term) (draft : Draft) :
      Steps place ⟨done, .afterItem draft⟩ (.token .arrow) ⟨done, .afterReach draft .children⟩
  | secondArrow (done : List Term) (draft : Draft) :
      Steps place ⟨done, .afterReach draft .children⟩ (.token .arrow)
        ⟨done, .afterReach draft .anywhere⟩
  | contents {e : Element} {shape : Shape} {contents : List Term} (done : List Term)
      (draft : Draft) (reach : Reach) (h : readContents e = .ok (shape, contents)) :
      Steps place ⟨done, .afterReach draft reach⟩ e
        ⟨done, .afterContents (draft.containing reach shape contents)⟩
  | repetition {stage : Stage} {draft : Draft} (done : List Term) (times : Repetition)
      (hplace : place ≠ .set) (hstage : stage = .afterItem draft ∨ stage = .afterContents draft) :
      Steps place ⟨done, stage⟩ (.token (.repetition times))
        ⟨done ++ [.repeated draft.term times], .between⟩
  | finish {s : State} {before : List Term} (hplace : place = .sequence) (h : s.Ends before) :
      Steps place s (.token .finish) ⟨before, .finished⟩

section Inversion

-- The beginning of a term, behind a complete one or behind a negation.
theorem start_cases {negated : Bool} (h : start place done negated e = .ok s') :
    (e = .token .finish ∧ place = .sequence ∧ negated = false ∧ s' = ⟨done, .finished⟩) ∨
      ∃ core name, readCore e = .ok (core, name) ∧
        s' = ⟨done, .afterItem ⟨negated, core, name⟩⟩ := by
  unfold start at h
  split at h
  · split at h
    · rename_i hfinish
      rw [Bool.and_eq_true, decide_eq_true_eq, Bool.not_eq_true'] at hfinish
      cases h
      exact Or.inl ⟨rfl, hfinish.1, hfinish.2, rfl⟩
    · cases h
  · obtain ⟨⟨core, name⟩, hcore, heq⟩ := bind_eq_ok.mp h
    cases heq
    exact Or.inr ⟨core, name, hcore, rfl⟩

theorem steps_of_start (hs : s.Ends before) (h : start place before false e = .ok s') :
    Steps place s e s' := by
  rcases start_cases h with ⟨rfl, hplace, -, rfl⟩ | ⟨core, name, hcore, rfl⟩
  · exact .finish hplace hs
  · exact .core hs hcore

theorem steps_of_continueAfter {stage : Stage}
    (hstage : stage = .afterItem draft ∨ stage = .afterContents draft)
    (h : continueAfter place done draft e = .ok s') : Steps place ⟨done, stage⟩ e s' := by
  have hends : State.Ends ⟨done, stage⟩ (done ++ [draft.term]) := by
    rcases hstage with rfl | rfl <;> rfl
  unfold continueAfter at h
  split at h
  · split at h
    · cases h
    · rename_i hplace
      cases h
      exact .repetition done _ hplace hstage
  · cases h
    exact .negation hends
  · exact steps_of_start hends h

theorem steps_of_step (h : step place s e = .ok s') : Steps place s e s' := by
  obtain ⟨done, stage⟩ := s
  unfold step at h
  -- The branches of a step in their order, each with the stage that it is for.
  split at h
  · rename_i hstage
    cases hstage
    cases h
    exact .negation rfl
  · rename_i hstage _
    cases hstage
    exact steps_of_start rfl h
  · rename_i hstage
    cases hstage
    rcases start_cases h with ⟨-, -, hnegated, -⟩ | ⟨core, name, hcore, rfl⟩
    · cases hnegated
    · exact .negated hcore
  · rename_i draft hstage
    cases hstage
    cases h
    exact .arrow done draft
  · rename_i hstage _
    cases hstage
    exact steps_of_continueAfter (Or.inl rfl) h
  · rename_i draft hstage
    cases hstage
    cases h
    exact .secondArrow done draft
  · rename_i draft reach hstage _
    cases hstage
    obtain ⟨⟨shape, contents⟩, hcontents, heq⟩ := bind_eq_ok.mp h
    cases heq
    exact .contents done draft reach hcontents
  · rename_i hstage
    cases hstage
    exact steps_of_continueAfter (Or.inr rfl) h
  · cases h

theorem Steps.step_eq_ok (h : Steps place s e s') : step place s e = .ok s' := by
  cases h with
  | negation hs => exact step_negation place hs
  | core hs hcore => exact step_of_readCore hcore place hs
  | negated hcore => exact step_afterNegation hcore place _
  | arrow done draft => rfl
  | secondArrow done draft => rfl
  | contents done draft reach hcontents => exact step_afterReach hcontents place done draft reach
  | repetition done times hplace hstage =>
      rcases hstage with rfl | rfl <;> exact if_neg hplace
  | finish hplace hs =>
      subst hplace
      exact step_finish hs

end Inversion

section Reading

-- A state behind terms that were read before.
def State.behind (before : List Term) (s : State) : State :=
  ⟨before ++ s.done, s.stage⟩

theorem State.finish_behind {terms : Terms} (h : s.finish = .ok terms) (before : List Term) :
    (s.behind before).finish = .ok ⟨before ++ terms.terms, terms.anchored⟩ := by
  obtain ⟨done, stage⟩ := s
  have hlast (draft : Draft) : before ++ done ++ [draft.term] = before ++ (done ++ [draft.term]) :=
    List.append_assoc before done [draft.term]
  cases stage <;> cases h <;> simp only [behind, finish, hlast]

theorem State.Ends.behind {terms : List Term} (h : s.Ends terms) (before : List Term) :
    (s.behind before).Ends (before ++ terms) :=
  State.finish_behind h before

-- What was read before plays no part in a step.
theorem Steps.behind (h : Steps place s e s') (before : List Term) :
    Steps place (s.behind before) e (s'.behind before) := by
  cases h with
  | negation hs => exact .negation (hs.behind before)
  | core hs hcore => exact .core (hs.behind before) hcore
  | negated hcore => exact .negated hcore
  | arrow done draft => exact .arrow (before ++ done) draft
  | secondArrow done draft => exact .secondArrow (before ++ done) draft
  | contents done draft reach hcontents => exact .contents (before ++ done) draft reach hcontents
  | repetition done times hplace hstage =>
      have hnext := Steps.repetition (before ++ done) times hplace hstage
      rwa [List.append_assoc] at hnext
  | finish hplace hs => exact .finish hplace (hs.behind before)

-- The first step from a complete term is the one from the very beginning.
theorem Steps.of_ends (h : Steps place ⟨[], .between⟩ e s') (hs : s.Ends before) :
    Steps place s e (s'.behind before) := by
  cases h with
  | negation hbegin =>
      cases hbegin
      rw [State.behind, List.append_nil]
      exact .negation hs
  | core hbegin hcore =>
      cases hbegin
      rw [State.behind, List.append_nil]
      exact .core hs hcore
  | repetition done times hplace hstage => rcases hstage with hstage | hstage <;> cases hstage
  | finish hplace hbegin =>
      cases hbegin
      rw [State.behind, List.append_nil]
      exact .finish hplace hs

theorem State.after_behind (h : s.after place gs = .ok s') (before : List Term) :
    (s.behind before).after place gs = .ok (s'.behind before) := by
  induction gs generalizing s with
  | nil =>
      cases h
      rfl
  | cons g gs ih =>
      rw [State.after, elementsOf, List.foldlM_cons] at h
      obtain ⟨next, hstep, hrest⟩ := bind_eq_ok.mp h
      have hnext := (steps_of_step hstep).behind before
      rw [State.after_cons hnext.step_eq_ok]
      exact ih hrest

-- A list of terms is read behind complete terms as by itself.
theorem readTerms_of_ends {terms : Terms} (h : readTerms place (elementsOf gs) = .ok terms)
    (hs : s.Ends before) :
    ∃ s', s.after place gs = .ok s' ∧ s'.finish = .ok ⟨before ++ terms.terms, terms.anchored⟩ := by
  obtain ⟨last, hafter, hfinish⟩ := bind_eq_ok.mp h
  cases gs with
  | nil =>
      cases hafter
      cases hfinish
      exact ⟨s, rfl, by rwa [List.append_nil]⟩
  | cons g gs =>
      rw [elementsOf, List.foldlM_cons] at hafter
      obtain ⟨next, hstep, hrest⟩ := bind_eq_ok.mp hafter
      have hnext := (steps_of_step hstep).of_ends hs
      refine ⟨last.behind before, ?_, State.finish_behind hfinish before⟩
      rw [State.after_cons hnext.step_eq_ok]
      exact State.after_behind hrest before

theorem readTerms_append {terms : List Term} {terms' : Terms}
    (h : readTerms place (elementsOf gs) = .ok ⟨terms, false⟩)
    (h' : readTerms place (elementsOf gs') = .ok terms') :
    readTerms place (elementsOf (gs ++ gs')) = .ok ⟨terms ++ terms'.terms, terms'.anchored⟩ := by
  obtain ⟨s, hafter, hs⟩ := bind_eq_ok.mp h
  obtain ⟨s', hafter', hfinish⟩ := readTerms_of_ends h' hs
  exact (bind_of_eq_ok ((State.after_append hafter gs').trans hafter')).trans hfinish

end Reading

section Bare

-- A term without modifiers.
def Term.IsBare : Term → Prop
  | .item _ => True
  | .anyOf _ => True
  | _ => False

-- A draft that is complete without modifiers has none.
theorem Draft.eq_of_concat {term : Term} (hbare : term.IsBare)
    (h : before ++ [draft.term] = [term]) : before = [] ∧ draft = ⟨false, term, none⟩ := by
  obtain ⟨hbefore, hlast⟩ := List.append_inj' (h.trans (List.nil_append [term]).symm) rfl
  refine ⟨hbefore, ?_⟩
  obtain rfl := (List.cons.inj hlast).1
  obtain ⟨negated, core, name⟩ := draft
  cases negated <;> cases name <;> first | rfl | exact hbare.elim

theorem State.eq_of_ends_nil (h : s.Ends []) : s = ⟨[], .between⟩ := by
  obtain ⟨done, stage⟩ := s
  cases stage <;> simp_all [State.Ends, State.finish]

-- In a set, only the beginning of a bare term can be the last step.
theorem Steps.of_finish {term : Term} {terms : Terms} (h : Steps .set s e s')
    (hfinish : s'.finish = .ok terms) (hterms : terms.terms = [term]) (hbare : term.IsBare) :
    s = ⟨[], .between⟩ ∧ readCore e = .ok (term, none) := by
  cases h with
  | core hs hcore =>
      cases hfinish
      obtain ⟨rfl, hdraft⟩ := Draft.eq_of_concat hbare hterms
      cases hdraft
      exact ⟨State.eq_of_ends_nil hs, hcore⟩
  | negated hcore =>
      cases hfinish
      cases (Draft.eq_of_concat hbare hterms).2
  | contents done draft reach hcontents =>
      cases hfinish
      obtain ⟨-, hdraft⟩ := Draft.eq_of_concat hbare hterms
      obtain rfl := congrArg Draft.core hdraft
      exact hbare.elim
  | repetition done times hplace hstage => exact absurd rfl hplace
  | finish hplace hs => cases hplace
  | _ => cases hfinish

theorem not_steps_between : ¬Steps .set s e ⟨done, .between⟩ := by
  intro h
  cases h with
  | repetition done times hplace hstage => exact hplace rfl

theorem State.after_concat {g : Group} :
    s.after place (gs ++ [g]) = s.after place gs >>= (step place · g.element) := by
  rw [State.after, State.after, elementsOf_eq_map, List.map_append, ← elementsOf_eq_map,
    List.foldlM_append]
  simp

-- A pattern for a bare term is one group.
theorem exists_group_of_compile {pattern : String} {term : Term}
    (h : compile pattern = .ok [term]) (hbare : term.IsBare) :
    ∃ g, parse pattern = .ok [g] ∧ readCore g.element = .ok (term, none) := by
  obtain ⟨gs, hparse, hterms⟩ := bind_eq_ok.mp h
  obtain ⟨result, hread, hresult⟩ := map_eq_ok.mp hterms
  obtain ⟨s, hafter, hfinish⟩ := bind_eq_ok.mp hread
  have hlast : State.after .set ⟨[], .between⟩ gs = .ok s := hafter
  rcases List.eq_nil_or_concat gs with rfl | ⟨front, g, rfl⟩
  · cases hlast
    cases hfinish
    cases hresult
  · rw [List.concat_eq_append, State.after_concat] at hlast
    obtain ⟨next, hfront, hstep⟩ := bind_eq_ok.mp hlast
    obtain ⟨rfl, hcore⟩ := (steps_of_step hstep).of_finish hfinish hresult hbare
    rcases List.eq_nil_or_concat front with rfl | ⟨front, g', rfl⟩
    · exact ⟨g, hparse, hcore⟩
    · rw [List.concat_eq_append, State.after_concat] at hfront
      obtain ⟨next, -, hstep⟩ := bind_eq_ok.mp hfront
      exact absurd (steps_of_step hstep) not_steps_between

end Bare

end HeadPercolation.Pattern
