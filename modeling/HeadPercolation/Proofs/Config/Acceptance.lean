import HeadPercolation.Proofs.Config.RuleTables
import HeadPercolation.Proofs.Config.Sections

namespace HeadPercolation.Config

-- What has a value in one table has a value in the other.
def Covers {α : Type} (known known' : String → Option α) : Prop :=
  ∀ key, (known key).isSome = true → (known' key).isSome = true

section Tables

variable {line : String} {table table' result : Table (List Directive)}
  {known known' : String → Option (List Directive)}

theorem covers_insert (table : Table (List Directive)) (category : String)
    (ds : List Directive) : Covers table.get? (table.insert category ds).get? := by
  intro key hkey
  rw [Table.get?_insert]
  split
  · rfl
  · exact hkey

theorem Covers.insert (h : Covers table.get? table'.get?) (category : String)
    (ds ds' : List Directive) :
    Covers (table.insert category ds).get? (table'.insert category ds').get? := by
  intro key hkey
  rw [Table.get?_insert] at hkey ⊢
  split
  · rfl
  · rename_i hne
    rw [if_neg hne] at hkey
    exact h key hkey

theorem Covers.entry (h : Covers known known') {parsed : RuleLine} {category : String}
    {ds : List Directive} (hentry : parsed.entry known = .ok (category, ds)) :
    ∃ ds', parsed.entry known' = .ok (category, ds') := by
  cases parsed with
  | rules category' ds' =>
      cases hentry
      exact ⟨ds, rfl⟩
  | copy category' other =>
      simp only [RuleLine.entry] at hentry ⊢
      split at hentry
      · cases hentry
      · rename_i ds' hknown
        cases hentry
        obtain ⟨ds', hds'⟩ := Option.isSome_iff_exists.mp (h other (by rw [hknown]; rfl))
        exact ⟨ds', by rw [hds']⟩

theorem covers_addRuleLine (h : addRuleLine table known line = .ok result) :
    Covers table.get? result.get? := by
  obtain ⟨parsed, -, h⟩ := bind_eq_ok.mp h
  obtain ⟨⟨category, ds⟩, -, h⟩ := bind_eq_ok.mp h
  cases h
  exact covers_insert table category ds

-- A rule that is added to a table can be added where more is known.
theorem Covers.addRuleLine (hknown : Covers known known') (htable : Covers table.get? table'.get?)
    (h : addRuleLine table known line = .ok result) :
    ∃ result', addRuleLine table' known' line = .ok result' ∧
      Covers result.get? result'.get? := by
  obtain ⟨parsed, hparsed, h⟩ := bind_eq_ok.mp h
  obtain ⟨⟨category, ds⟩, hentry, h⟩ := bind_eq_ok.mp h
  cases h
  obtain ⟨ds', hentry'⟩ := hknown.entry hentry
  refine ⟨table'.insert category ds', ?_, htable.insert category ds ds'⟩
  rw [Config.addRuleLine, bind_of_eq_ok hparsed, bind_of_eq_ok hentry']
  rfl

end Tables

namespace Settings

-- Each category that has rules has rules in the other settings.
structure IsCovered (s s' : Settings) : Prop where
  headRules : Covers s.tables.headRules.get? s'.tables.headRules.get?
  semanticHeadRules : Covers s.tables.semanticHeadRules.get? s'.tables.semanticHeadRules.get?

variable {s s' r : Settings} {current next : Option Section} {text line : String}
  {lines : List (Position × String)}

theorem isCovered_of_eq (h : s'.tables.headRules = s.tables.headRules ∧
    s'.tables.semanticHeadRules = s.tables.semanticHeadRules) : s.IsCovered s' :=
  ⟨fun _ hkey => h.1 ▸ hkey, fun _ hkey => h.2 ▸ hkey⟩

theorem isCovered_refl (s : Settings) : s.IsCovered s :=
  isCovered_of_eq ⟨rfl, rfl⟩

theorem IsCovered.trans (h : s.IsCovered s') (h' : s'.IsCovered r) : s.IsCovered r :=
  ⟨fun key hkey => h'.headRules key (h.headRules key hkey),
    fun key hkey => h'.semanticHeadRules key (h.semanticHeadRules key hkey)⟩

theorem IsCovered.semanticRules? (h : s.IsCovered s') :
    Covers s.semanticRules? s'.semanticRules? := by
  intro key hkey
  rw [Settings.semanticRules?, Option.isSome_or, Bool.or_eq_true] at hkey ⊢
  exact hkey.imp (h.semanticHeadRules key) (h.headRules key)

-- Whether a line of the settings is refused does not depend on what was read before it.
theorem exists_assign (s' : Settings) (h : s.assign line = .ok r) :
    ∃ r', s'.assign line = .ok r' := by
  unfold assign at h ⊢
  cases hcut : Text.cutAt '=' (Text.lower line.toList) with
  | none =>
      rw [hcut] at h
      cases h
  | some parts =>
      obtain ⟨before, after⟩ := parts
      rw [hcut] at h
      dsimp only at h ⊢
      generalize String.ofList (Text.trim before) = parameter at h ⊢
      generalize String.ofList (Text.trim after) = value at h ⊢
      split at h
      · split at h <;> cases h <;> exact ⟨_, rfl⟩
      · split at h <;> cases h <;> exact ⟨_, rfl⟩
      · cases h

theorem isCovered_handle {opened : Section} (h : s.handle line opened = .ok r) :
    s.IsCovered r := by
  cases opened with
  | settings => exact isCovered_of_eq (assign_headRules h)
  | words list =>
      cases h
      cases list <;> exact isCovered_of_eq ⟨rfl, rfl⟩
  | headRules =>
      obtain ⟨table, htable, h⟩ := bind_eq_ok.mp h
      cases h
      exact ⟨covers_addRuleLine htable, fun _ hkey => hkey⟩
  | semanticHeadRules =>
      obtain ⟨table, htable, h⟩ := bind_eq_ok.mp h
      cases h
      exact ⟨fun _ hkey => hkey, covers_addRuleLine htable⟩

theorem IsCovered.handle {opened : Section} (hcovered : s.IsCovered s')
    (h : s.handle line opened = .ok r) :
    ∃ r', s'.handle line opened = .ok r' ∧ r.IsCovered r' := by
  cases opened with
  | settings =>
      obtain ⟨r', hr'⟩ := exists_assign s' h
      obtain ⟨hhead, hsemantic⟩ := assign_headRules h
      obtain ⟨hhead', hsemantic'⟩ := assign_headRules hr'
      refine ⟨r', hr', ?_, ?_⟩
      · rw [hhead, hhead']
        exact hcovered.headRules
      · rw [hsemantic, hsemantic']
        exact hcovered.semanticHeadRules
  | words list =>
      cases h
      refine ⟨_, rfl, ?_⟩
      cases list <;> exact ⟨hcovered.headRules, hcovered.semanticHeadRules⟩
  | headRules =>
      obtain ⟨table, htable, h⟩ := bind_eq_ok.mp h
      cases h
      obtain ⟨table', htable', hcovers⟩ :=
        hcovered.headRules.addRuleLine hcovered.headRules htable
      exact ⟨_, bind_of_eq_ok htable', hcovers, hcovered.semanticHeadRules⟩
  | semanticHeadRules =>
      obtain ⟨table, htable, h⟩ := bind_eq_ok.mp h
      cases h
      obtain ⟨table', htable', hcovers⟩ :=
        hcovered.semanticRules?.addRuleLine hcovered.semanticHeadRules htable
      exact ⟨_, bind_of_eq_ok htable', hcovered.headRules, hcovers⟩

-- A line that is taken up is taken up where more is known, in the same section. What is known grows
-- by it.
theorem IsCovered.takeLine (hcovered : s.IsCovered s')
    (h : s.takeLine current text = .ok (r, next)) :
    ∃ r', s'.takeLine current text = .ok (r', next) ∧ s.IsCovered r ∧ r.IsCovered r' := by
  unfold Settings.takeLine at h ⊢
  cases hcontent : contentOf text with
  | nil =>
      rw [hcontent] at h
      cases h
      exact ⟨s', rfl, isCovered_refl s, hcovered⟩
  | cons c cs =>
      rw [hcontent] at h
      dsimp only at h ⊢
      cases hname : sectionName? (c :: cs) with
      | some name =>
          rw [hname] at h
          dsimp only at h ⊢
          cases hopened : Section.ofName? name with
          | none =>
              rw [hopened] at h
              cases h
          | some opened =>
              rw [hopened] at h
              cases h
              exact ⟨s', rfl, isCovered_refl s, hcovered⟩
      | none =>
          rw [hname] at h
          dsimp only at h ⊢
          cases current with
          | none => cases h
          | some opened =>
              obtain ⟨taken, htaken, heq⟩ := map_eq_ok.mp h
              cases heq
              obtain ⟨taken', htaken', hcovers⟩ := hcovered.handle htaken
              exact ⟨taken', map_eq_ok.mpr ⟨taken', htaken', rfl⟩, isCovered_handle htaken, hcovers⟩

theorem IsCovered.takeAll (hcovered : s.IsCovered s')
    (h : s.takeAll current lines = .ok (r, next)) :
    ∃ r', s'.takeAll current lines = .ok (r', next) ∧ s.IsCovered r ∧ r.IsCovered r' := by
  induction lines generalizing s s' current with
  | nil =>
      cases h
      exact ⟨s', rfl, isCovered_refl r, hcovered⟩
  | cons line lines ih =>
      rw [takeAll_cons] at h
      obtain ⟨⟨taken, opened⟩, hline, hlines⟩ := bind_eq_ok.mp h
      obtain ⟨taken', hline', hgrows, hcovers⟩ := hcovered.takeLine hline
      obtain ⟨r', hlines', hgrows', hcovers'⟩ := ih hcovers hlines
      refine ⟨r', ?_, hgrows.trans hgrows', hcovers'⟩
      rw [takeAll_cons, bind_of_eq_ok hline']
      exact hlines'

-- Lines that are taken up twice in a row can be taken up again and again: after the first time they
-- begin in the section that they end in, and nothing that is known is ever lost.
theorem exists_takeAll_replicate {t : Settings} {next' : Option Section}
    (hfirst : s.takeAll current lines = .ok (r, next))
    (hsecond : r.takeAll next lines = .ok (t, next')) (count : Nat) :
    ∃ result, s.takeAll current (List.replicate count lines).flatten = .ok result := by
  have hnext : next' = next := by
    rw [takeAll_current hsecond, takeAll_current hfirst]
    cases lastHeading? lines <;> rfl
  subst hnext
  obtain ⟨-, -, hgrows, -⟩ := (isCovered_refl r).takeAll hsecond
  have hagain (count : Nat) {r' : Settings} (hcovered : r.IsCovered r') :
      ∃ result, r'.takeAll next' (List.replicate count lines).flatten = .ok result := by
    induction count generalizing r' with
    | zero => exact ⟨(r', next'), rfl⟩
    | succ count ih =>
        obtain ⟨t', ht', -, hcovered'⟩ := hcovered.takeAll hsecond
        rw [List.replicate_succ, List.flatten_cons, takeAll_append, bind_of_eq_ok ht']
        exact ih (hgrows.trans hcovered')
  cases count with
  | zero => exact ⟨(s, current), rfl⟩
  | succ count =>
      rw [List.replicate_succ, List.flatten_cons, takeAll_append, bind_of_eq_ok hfirst]
      exact hagain count (isCovered_refl r)

end Settings

end HeadPercolation.Config
