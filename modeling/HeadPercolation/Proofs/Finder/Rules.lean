import HeadPercolation.Finder.Basic
import HeadPercolation.Proofs.Table

namespace HeadPercolation

theorem Direction.ofName?_eq_some_iff {name : String} {direction : Direction} :
    ofName? name = some direction ↔ name = direction.name := by
  constructor
  · intro h
    unfold ofName? at h
    split at h <;> cases h <;> rfl
  · rintro rfl
    exact ofName?_name direction

theorem Directive.ofWritten_eq_ok {w : Written} {d : Directive} :
    ofWritten w = .ok d ↔ w = d.written := by
  obtain ⟨name, categories⟩ := w
  obtain ⟨direction, categories'⟩ := d
  simp only [ofWritten, written, Written.mk.injEq]
  cases hname : Direction.ofName? name with
  | none =>
      have hne : name ≠ direction.name := by
        rintro rfl
        rw [Direction.ofName?_name] at hname
        cases hname
      simp [hne]
  | some direction' =>
      obtain rfl := Direction.ofName?_eq_some_iff.mp hname
      simp only [Except.ok.injEq, mk.injEq]
      constructor
      · rintro ⟨rfl, rfl⟩
        exact ⟨rfl, rfl⟩
      · rintro ⟨hd, rfl⟩
        have := Direction.ofName?_name direction
        rw [← hd, Direction.ofName?_name] at this
        exact ⟨Option.some.inj this, rfl⟩

theorem Directive.written_injective : Function.Injective Directive.written := by
  intro d e h
  have hd := ofWritten_eq_ok.mpr (rfl : d.written = d.written)
  rw [h, ofWritten_eq_ok.mpr (rfl : e.written = e.written)] at hd
  exact (Except.ok.inj hd).symm

theorem checkDirectives_eq_ok {category : String} {ws : List Directive.Written}
    {ds : List Directive} :
    checkDirectives category ws = .ok ds ↔ ws = ds.map Directive.written ∧ ds ≠ [] := by
  have hsteps : ws.mapM Directive.ofWritten = .ok ds ↔ ws = ds.map Directive.written := by
    rw [mapM_eq_ok, ← List.forall₂_eq_eq_eq, List.forall₂_map_right_iff]
    simp only [Directive.ofWritten_eq_ok]
  cases ws with
  | nil =>
      simp only [checkDirectives, List.isEmpty_nil, if_true]
      constructor
      · intro h
        cases h
      · rintro ⟨h, hne⟩
        exact False.elim (hne (List.map_eq_nil_iff.mp h.symm))
  | cons w ws =>
      simp only [checkDirectives, List.isEmpty_cons, Bool.false_eq_true, if_false, hsteps]
      refine (and_iff_left_of_imp ?_).symm
      rintro h rfl
      cases h

namespace HeadFinder

variable {rules : Table (List Directive.Written)} {avoid : List String}
  {defaultRule : Option Directive.Written} {hf : HeadFinder}

-- An accepted finder has the directives that were written, the hooks that do nothing, and at
-- least one directive for each category that it knows.
theorem ofRules_eq_ok (h : ofRules rules avoid defaultRule = .ok hf) :
    hf = { rules := hf.rules, avoid, defaultRule := hf.defaultRule } ∧
      rules.mapExcept checkDirectives = .ok hf.rules ∧
        defaultRule = hf.defaultRule.map Directive.written := by
  obtain ⟨table, htable, h⟩ := bind_eq_ok.mp h
  obtain ⟨default, hdefault, h⟩ := bind_eq_ok.mp h
  cases h
  refine ⟨rfl, htable, ?_⟩
  cases defaultRule with
  | none =>
      cases hdefault
      rfl
  | some w =>
      obtain ⟨d, hd, h⟩ := bind_eq_ok.mp hdefault
      cases h
      rw [Directive.ofWritten_eq_ok.mp hd]
      rfl

theorem ofRules_get? (h : ofRules rules avoid defaultRule = .ok hf) (category : String) :
    (rules.get? category = none ∧ hf.rules.get? category = none) ∨
      ∃ ds, rules.get? category = some (ds.map Directive.written) ∧
        hf.rules.get? category = some ds ∧ ds ≠ [] := by
  obtain ⟨-, htable, -⟩ := ofRules_eq_ok h
  obtain hnone | ⟨ws, ds, hws, hds, hcheck⟩ := Table.mapExcept_eq_ok htable category
  · exact Or.inl hnone
  · obtain ⟨rfl, hne⟩ := checkDirectives_eq_ok.mp hcheck
    exact Or.inr ⟨ds, hws, hds, hne⟩

-- A table of directives with known directions, at least one for each category, is accepted.
theorem exists_ofRules_eq_ok
    (h : ∀ category ws, rules.get? category = some ws →
      ∃ ds, ws = ds.map Directive.written ∧ ds ≠ [])
    (hdefault : ∀ w, defaultRule = some w → ∃ d, w = Directive.written d) :
    ∃ hf, ofRules rules avoid defaultRule = .ok hf := by
  obtain ⟨table, htable⟩ : ∃ table, rules.mapExcept checkDirectives = .ok table := by
    apply Table.exists_mapExcept_eq_ok
    intro entry hentry
    obtain ⟨ds, hds⟩ := h entry.1 entry.2 (Table.get?_eq_some_iff.mpr hentry)
    exact ⟨ds, checkDirectives_eq_ok.mpr hds⟩
  obtain ⟨default, hok⟩ : ∃ default, defaultRule.mapM Directive.ofWritten = .ok default := by
    cases hd : defaultRule with
    | none => exact ⟨none, rfl⟩
    | some w =>
        obtain ⟨d, hw⟩ := hdefault w hd
        exact ⟨some d, bind_of_eq_ok (Directive.ofWritten_eq_ok.mpr hw)⟩
  refine ⟨{ rules := table, avoid, defaultRule := default }, ?_⟩
  rw [ofRules, bind_of_eq_ok htable, bind_of_eq_ok hok]
  rfl

-- The directives for a node of the category, the default rule included.
theorem ofRules_directives (h : ofRules rules avoid defaultRule = .ok hf) {category : String}
    {ws : List Directive.Written}
    (hws : (rules.get? category).or (defaultRule.map ([·])) = some ws) :
    ∃ ds, ws = ds.map Directive.written ∧ ds ≠ [] ∧
      (hf.rules.get? category).or (hf.defaultRule.map ([·])) = some ds := by
  obtain ⟨-, -, hdefault⟩ := ofRules_eq_ok h
  obtain ⟨hnone, hnone'⟩ | ⟨ds, hsome, hsome', hne⟩ := ofRules_get? h category
  · cases hd : hf.defaultRule with
    | none => simp [hnone, hdefault, hd] at hws
    | some d =>
        have hws : [d.written] = ws := by simpa [hnone, hdefault, hd] using hws
        exact ⟨[d], hws.symm, by simp, by simp [hnone']⟩
  · have hws : ds.map Directive.written = ws := by simpa [hsome] using hws
    exact ⟨ds, hws.symm, hne, by simp [hsome']⟩

end HeadFinder

end HeadPercolation
