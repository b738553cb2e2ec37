import HeadPercolation.Proofs.Config.History
import HeadPercolation.Proofs.Config.Sections

namespace HeadPercolation.Config

namespace Settings

-- A text has the form `parameter = value`. Neither case nor white space around them counts.
def Assigns (content : List Char) (parameter value : String) : Prop :=
  ∃ before after, Text.lower content = before ++ '=' :: after ∧ '=' ∉ before ∧
    String.ofList (Text.trim before) = parameter ∧ String.ofList (Text.trim after) = value

-- Does a line in the section of the settings ask for reports? The section is the one that is opened
-- last before the line.
structure AsksForReports (before : List (Position × String)) (text : String) : Prop where
  inside : lastHeading? before = some "settings"
  no_heading : headingOf? text = none
  assigns : Assigns (contentOf text) "debug" "true"

end Settings

-- Some line of the configuration asks for reports.
def Call.AsksForReports (call : Call) : Prop :=
  ∃ lines before line, IsExpansion call.files call.name lines ∧ before ++ [line] <+: lines ∧
    Settings.AsksForReports before line.2

theorem Section.ofName?_eq_settings {name : String} :
    Section.ofName? name = some .settings ↔ name = "settings" := by
  constructor
  · intro h
    unfold ofName? at h
    split at h <;> first | rfl | cases h
  · rintro rfl
    rfl

namespace Settings

variable {s s' : Settings} {current next : Option Section} {text : String}

theorem not_assigns_nil (parameter value : String) : ¬Assigns [] parameter value := by
  rintro ⟨before, after, h, -⟩
  exact absurd h.symm (by simp [Text.lower, Text.lowerFrom])

theorem assign_debug {line : String} (h : s.assign line = .ok s') :
    s'.debug = true ↔ s.debug = true ∨ Assigns line.toList "debug" "true" := by
  unfold assign at h
  split at h
  · cases h
  · rename_i before after hcut
    have hassigns : Assigns line.toList "debug" "true" ↔
        String.ofList (Text.trim before) = "debug" ∧ String.ofList (Text.trim after) = "true" := by
      obtain ⟨hline, hequals⟩ := Text.cutAt_eq_some_iff.mp hcut
      constructor
      · rintro ⟨before', after', hline', hequals', hparts⟩
        have hcut' := Text.cutAt_eq_some_iff.mpr ⟨hline', hequals'⟩
        cases hcut.symm.trans hcut'
        exact hparts
      · exact fun hparts => ⟨before, after, hline, hequals, hparts⟩
    rw [hassigns]
    generalize String.ofList (Text.trim before) = parameter at h ⊢
    generalize String.ofList (Text.trim after) = value at h ⊢
    dsimp only at h
    split at h
    · split at h <;> cases h <;> simp
    · split at h <;> cases h <;> simp
    · cases h

theorem handle_debug {line : String} {opened : Section} (h : s.handle line opened = .ok s') :
    s'.debug = true ↔ s.debug = true ∨ opened = .settings ∧ Assigns line.toList "debug" "true" := by
  cases opened with
  | settings => simpa using assign_debug h
  | words list =>
      cases h
      simp [addWords]
  | headRules =>
      obtain ⟨table, -, h⟩ := bind_eq_ok.mp h
      cases h
      simp
  | semanticHeadRules =>
      obtain ⟨table, -, h⟩ := bind_eq_ok.mp h
      cases h
      simp

theorem takeLine_debug (h : s.takeLine current text = .ok (s', next)) :
    s'.debug = true ↔ s.debug = true ∨ current = some .settings ∧ headingOf? text = none ∧
      Assigns (contentOf text) "debug" "true" := by
  rcases takeLine_cases h with ⟨name, opened, hheading, -, rfl, -⟩ |
    ⟨hheading, -, ⟨hblank, rfl⟩ | ⟨opened, rfl, htaken⟩⟩
  · simp [hheading]
  · simp [hblank, not_assigns_nil]
  · rw [handle_debug htaken, String.toList_ofList]
    simp [hheading]

section Lines

variable {lines : List (Position × String)} {line : Position × String}

theorem lastHeading?_elim_eq_settings :
    (lastHeading? lines).elim none Section.ofName? = some .settings ↔
      lastHeading? lines = some "settings" := by
  cases lastHeading? lines with
  | none => simp
  | some name => simp [Section.ofName?_eq_settings]

-- An element of a list stands in front of the last one, or it is the last one.
theorem exists_snoc_prefix_snoc {α : Type} {p : List α → α → Prop} {xs : List α} {x : α} :
    (∃ before y, before ++ [y] <+: xs ++ [x] ∧ p before y) ↔
      (∃ before y, before ++ [y] <+: xs ∧ p before y) ∨ p xs x := by
  simp only [List.prefix_concat_iff]
  constructor
  · rintro ⟨before, y, hlast | hbefore, hp⟩
    · obtain ⟨rfl, hy⟩ := List.append_inj' hlast rfl
      cases hy
      exact Or.inr hp
    · exact Or.inl ⟨before, y, hbefore, hp⟩
  · rintro (⟨before, y, hbefore, hp⟩ | hp)
    · exact ⟨before, y, Or.inr hbefore, hp⟩
    · exact ⟨xs, x, Or.inl rfl, hp⟩

-- After some lines, reports are on if they were so before or if one of the lines asks for them.
theorem takeAll_debug (h : s.takeAll none lines = .ok (s', current)) :
    s'.debug = true ↔ s.debug = true ∨
      ∃ before line, before ++ [line] <+: lines ∧ AsksForReports before line.2 := by
  induction lines using List.reverseRec generalizing s' current with
  | nil =>
      cases h
      simp
  | append_singleton lines line ih =>
      rw [takeAll_append] at h
      obtain ⟨⟨t, opened⟩, hlines, h⟩ := bind_eq_ok.mp h
      obtain ⟨⟨t', opened'⟩, hline, h⟩ := bind_eq_ok.mp h
      cases h
      have hasks : AsksForReports lines line.2 ↔
          opened = some .settings ∧ headingOf? line.2 = none ∧
            Assigns (contentOf line.2) "debug" "true" := by
        rw [takeAll_current hlines, lastHeading?_elim_eq_settings]
        exact ⟨fun ⟨h, h', h''⟩ => ⟨h, h', h''⟩, fun ⟨h, h', h''⟩ => ⟨h, h', h''⟩⟩
      rw [takeLine_debug hline, ih hlines, ← hasks, or_assoc, exists_snoc_prefix_snoc]

end Lines

-- Where nothing was read before, a configuration that is read to its end switches reports on just
-- when it asks for them.
theorem initial_reread_debug {call : Call} (h : call.Completes) :
    (initial.reread call.files call.name).1.debug = true ↔ call.AsksForReports := by
  unfold Call.Completes reread at h
  unfold reread
  have hinitial : { initial with tables := .empty } = initial := rfl
  simp only [hinitial] at h ⊢
  rcases takeLines_cases initial none (Config.read call.files call.name).lines with
    ⟨taken, current, hall, hlines⟩ | ⟨before, line, later, taken, current, error, -, -, -, hlines⟩
  · rw [hlines] at h ⊢
    dsimp only at h ⊢
    cases hfailure : (Config.read call.files call.name).failure with
    | some failure =>
        rw [hfailure] at h
        cases h
    | none =>
        have hexpansion := readDown_expands _ _ _ hfailure
        dsimp only
        rw [takeAll_debug hall]
        constructor
        · rintro (hon | ⟨before, line, hbefore, hasks⟩)
          · cases hon
          · exact ⟨_, before, line, hexpansion, hbefore, hasks⟩
        · rintro ⟨lines, before, line, hlines, hbefore, hasks⟩
          rw [hlines.unique hexpansion] at hbefore
          exact Or.inr ⟨before, line, hbefore, hasks⟩
  · rw [hlines] at h
    cases h

theorem after_debug {call : Call} (hforce : call.force = true) (h : call.Completes) (s : Settings) :
    (s.after call).debug = true ↔ s.debug = true ∨ call.AsksForReports := by
  have hafter : s.after call = s.replaced (initial.reread call.files call.name) := by
    rw [after, read, hforce, Bool.not_true, Bool.and_false]
    exact congrArg Prod.fst (s.reread_eq call.files call.name)
  rw [hafter, replaced, Bool.or_eq_true, initial_reread_debug h, or_comm]

-- After calls that are forced and get to the end of their configurations, reports are on if they were
-- so before or if any of the configurations asks for them. They are not switched off by the last one.
theorem afterAll_debug {calls : List Call}
    (h : ∀ call ∈ calls, call.force = true ∧ call.Completes) (s : Settings) :
    (s.afterAll calls).debug = true ↔ s.debug = true ∨ ∃ call ∈ calls, call.AsksForReports := by
  induction calls generalizing s with
  | nil => simp [afterAll]
  | cons call calls ih =>
      obtain ⟨⟨hforce, hcompletes⟩, hcalls⟩ := List.forall_mem_cons.mp h
      change ((s.after call).afterAll calls).debug = true ↔ _
      rw [ih hcalls, after_debug hforce hcompletes, or_assoc, List.exists_mem_cons_iff]

theorem afterAll_debug_quiet :
    let files : FileSet := .ofList [("noisy", .ofLines ["[settings]", "debug = true"]),
      ("quiet", .ofLines ["[settings]", "debug = false"])]
    let calls : List Call := [⟨files, "quiet", true⟩, ⟨files, "noisy", true⟩, ⟨files, "quiet", true⟩]
    (∀ call ∈ calls, call.force = true ∧ call.Completes) ∧
      ((initial.afterAll calls).debug = true ↔
        initial.debug = true ∨ ∃ call ∈ calls, call.AsksForReports) := by
  intro files calls
  have hcalls : ∀ call ∈ calls, call.force = true ∧ call.Completes := by decide +kernel
  exact ⟨hcalls, afterAll_debug hcalls initial⟩

-- Reports stay on that the configuration read last does not ask for.
theorem debug_of_earlier :
    let files : FileSet := .ofList [("noisy", .ofLines ["[settings]", "debug = true"]),
      ("quiet", .ofLines ["[settings]", "debug = false"])]
    let noisy : Call := ⟨files, "noisy", true⟩
    let quiet : Call := ⟨files, "quiet", true⟩
    initial.debug = false ∧ noisy.Completes ∧ quiet.Completes ∧ ¬quiet.AsksForReports ∧
      (initial.afterAll [noisy, quiet]).debug = true := by
  intro files noisy quiet
  have hquiet : quiet.Completes := by decide +kernel
  have hasks : ¬quiet.AsksForReports := by
    rw [← initial_reread_debug hquiet]
    decide +kernel
  exact ⟨rfl, by decide +kernel, hquiet, hasks, by decide +kernel⟩

end Settings

end HeadPercolation.Config
