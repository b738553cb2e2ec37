import HeadPercolation.Config.Settings
import Mathlib.Data.List.Basic
import Mathlib.Data.List.Induction

namespace HeadPercolation.Config

-- A request to read a configuration. The files can be others from one call to the next.
structure Call where
  files : FileSet
  name : String
  force : Bool

namespace Call

-- The tables that a call makes if nothing has been read before it, as far as it gets.
def tables (call : Call) : Tables :=
  (Settings.initial.reread call.files call.name).1.tables

-- Is the configuration of the call read to its end?
def Completes (call : Call) : Prop :=
  (Settings.initial.reread call.files call.name).2 = none

instance (call : Call) : Decidable call.Completes :=
  inferInstanceAs (Decidable (_ = none))

end Call

namespace Settings

-- What a call leaves, whether it ends in an error or not.
def after (s : Settings) (call : Call) : Settings :=
  (s.read call.files call.name call.force).1

def afterAll (s : Settings) (calls : List Call) : Settings :=
  calls.foldl after s

variable {s : Settings} {calls : List Call}

-- The tables alone, with nothing loaded and nothing to be reported.
def bare (s : Settings) : Settings :=
  ⟨s.tables, false, false⟩

-- What becomes of settings when their tables alone become `r`.
def become (s r : Settings) : Settings :=
  ⟨r.tables, s.loaded, r.debug || s.debug⟩

theorem bare_tables (s : Settings) : s.bare.tables = s.tables :=
  rfl

theorem semanticRules?_bare (s : Settings) : s.bare.semanticRules? = s.semanticRules? :=
  rfl

theorem become_become (s r r' : Settings) : s.become (r.become r') = (s.become r).become r' := by
  simp only [become, Bool.or_assoc]

-- A line is taken up in the same way whether a configuration is loaded or not, and whether
-- decisions are reported or not.
theorem assign_eq (s : Settings) (line : String) :
    s.assign line = (s.bare.assign line).map s.become := by
  unfold assign
  cases Text.cutAt '=' (Text.lower line.toList) with
  | none => rfl
  | some parts =>
      obtain ⟨before, after⟩ := parts
      dsimp only
      generalize String.ofList (Text.trim before) = parameter
      generalize String.ofList (Text.trim after) = text
      have hdebug (value : Bool) : { s with debug := s.debug || value } =
          s.become { s.bare with debug := s.bare.debug || value } := by
        rw [Bool.or_comm]
        rfl
      split
      · split
        · exact congrArg Except.ok (hdebug true)
        · rfl
        · rfl
      · split
        · exact congrArg Except.ok (hdebug false)
        · rfl
        · rfl
      · rfl

theorem handle_eq (s : Settings) (line : String) (current : Section) :
    s.handle line current = (s.bare.handle line current).map s.become := by
  cases current with
  | settings => exact s.assign_eq line
  | words list => rfl
  | headRules =>
      simp only [handle, bare_tables]
      cases addRuleLine s.tables.headRules s.tables.headRules.get? line <;> rfl
  | semanticHeadRules =>
      simp only [handle, bare_tables, semanticRules?_bare]
      cases addRuleLine s.tables.semanticHeadRules s.semanticRules? line <;> rfl

theorem takeLine_eq (s : Settings) (current : Option Section) (text : String) :
    s.takeLine current text =
      (s.bare.takeLine current text).map fun r => (s.become r.1, r.2) := by
  unfold takeLine
  split
  · rfl
  · split
    · split <;> rfl
    · split
      · rfl
      · rename_i current
        dsimp only
        rw [handle_eq]
        cases s.bare.handle _ current <;> rfl

theorem takeLines_eq (s : Settings) (current : Option Section) (lines : List Line) :
    s.takeLines current lines =
      (s.become (s.bare.takeLines current lines).1, (s.bare.takeLines current lines).2) := by
  induction lines generalizing s current with
  | nil => rfl
  | cons line lines ih =>
      unfold takeLines
      rw [takeLine_eq]
      cases s.bare.takeLine current line.text with
      | error e => rfl
      | ok taken =>
          obtain ⟨r, next⟩ := taken
          change (s.become r).takeLines next lines =
            (s.become (r.takeLines next lines).1, (r.takeLines next lines).2)
          rw [ih (s.become r), ih r, become_become]
          rfl

theorem takeLines_cleared (s : Settings) (lines : List Line) :
    { s with tables := .empty }.takeLines none lines =
      (s.become (initial.takeLines none lines).1, (initial.takeLines none lines).2) :=
  takeLines_eq { s with tables := .empty } none lines

-- What is read into settings where nothing was read before, put in place of what they have read.
-- Whether a configuration is loaded and whether decisions are reported is only ever switched on.
def replaced (s : Settings) (result : Settings × Option ReadError) : Settings :=
  ⟨result.1.tables, s.loaded || result.2.isNone, result.1.debug || s.debug⟩

theorem replaced_replaced (s : Settings) (result : Settings × Option ReadError) :
    (s.replaced result).replaced result = s.replaced result := by
  simp only [replaced, Bool.or_assoc, Bool.or_self, Bool.or_self_left]

-- Reading a configuration does the same to all settings.
theorem reread_eq (s : Settings) (files : FileSet) (name : String) :
    s.reread files name =
      (s.replaced (initial.reread files name), (initial.reread files name).2) := by
  unfold reread
  dsimp only
  rw [takeLines_cleared s, takeLines_cleared initial]
  generalize initial.takeLines none _ = taken
  obtain ⟨r, error⟩ := taken
  cases error with
  | some error => simp [become, replaced, initial]
  | none =>
      cases (Config.read files name).failure with
      | some failure => simp [become, replaced, initial]
      | none => simp [become, replaced, initial]

-- A forced read ends in the same way and leaves the same tables whatever was read before it, and
-- to read a configuration twice is to read it once.
theorem read_forced (files : FileSet) (name : String) (s s' : Settings) :
    (s.read files name true).2 = (s'.read files name true).2 ∧
      (s.read files name true).1.tables = (s'.read files name true).1.tables ∧
        (s.read files name true).1.read files name true = s.read files name true := by
  have hread (s : Settings) : s.read files name true =
      (s.replaced (initial.reread files name), (initial.reread files name).2) := by
    rw [read, Bool.not_true, Bool.and_false]
    exact s.reread_eq files name
  refine ⟨?_, ?_, ?_⟩
  · rw [hread s, hread s']
  · rw [hread s, hread s']
    rfl
  · rw [hread s, hread, replaced_replaced]

-- What a configuration leaves in the tables does not depend on what was read before it.
theorem reread_spec (s : Settings) (call : Call) :
    (s.reread call.files call.name).1.tables = call.tables ∧
      ((s.reread call.files call.name).1.loaded = true ↔ s.loaded = true ∨ call.Completes) := by
  rw [reread_eq]
  refine ⟨rfl, ?_⟩
  rw [replaced, Bool.or_eq_true, Option.isNone_iff_eq_none]
  rfl

-- A call does nothing, or else it reads its configuration.
theorem after_cases (s : Settings) (call : Call) :
    s.loaded = true ∧ call.force = false ∧ s.after call = s ∨
      (call.force = true ∨ s.loaded = false) ∧ (s.after call).tables = call.tables ∧
        ((s.after call).loaded = true ↔ s.loaded = true ∨ call.Completes) := by
  unfold after read
  split
  · rename_i hskip
    left
    simp only [Bool.and_eq_true, Bool.not_eq_true'] at hskip
    exact ⟨hskip.1, hskip.2, rfl⟩
  · rename_i hread
    right
    refine ⟨?_, s.reread_spec call⟩
    cases hforce : call.force <;> cases hloaded : s.loaded <;> simp_all

theorem after_loaded (s : Settings) (call : Call) :
    (s.after call).loaded = true ↔ s.loaded = true ∨ call.Completes := by
  rcases s.after_cases call with ⟨hloaded, -, hsame⟩ | ⟨-, -, hiff⟩
  · rw [hsame]
    exact ⟨Or.inl, fun _ => hloaded⟩
  · exact hiff

-- A configuration is loaded as soon as one has been read to its end, and stays so.
theorem afterAll_loaded (s : Settings) (calls : List Call) :
    (s.afterAll calls).loaded = true ↔ s.loaded = true ∨ ∃ call ∈ calls, call.Completes := by
  induction calls generalizing s with
  | nil => simp [afterAll]
  | cons call calls ih =>
      change ((s.after call).afterAll calls).loaded = true ↔ _
      rw [ih, after_loaded, or_assoc, List.exists_mem_cons_iff]

theorem afterAll_snoc (s : Settings) (calls : List Call) (call : Call) :
    s.afterAll (calls ++ [call]) = (s.afterAll calls).after call := by
  simp only [afterAll, List.foldl_append, List.foldl_cons, List.foldl_nil]

-- When a configuration is loaded, the tables are those of the last call that read one, as far as
-- it got. It got to the end, unless it was forced after another call had done so.
theorem afterAll_tables (hstart : s.loaded = false) (hloaded : (s.afterAll calls).loaded = true) :
    ∃ before call later, calls = before ++ call :: later ∧
      (call.force = true ∨ (s.afterAll before).loaded = false) ∧
        (∀ c ∈ later, c.force = false) ∧ (s.afterAll calls).tables = call.tables ∧
          (call.Completes ∨ call.force = true ∧ ∃ c ∈ before, c.Completes) := by
  induction calls using List.reverseRec with
  | nil =>
      rw [afterAll, List.foldl_nil, hstart] at hloaded
      cases hloaded
  | append_singleton calls call ih =>
      rw [afterAll_snoc] at hloaded ⊢
      rcases (s.afterAll calls).after_cases call with
        ⟨hprior, hforce, hsame⟩ | ⟨hread, htables, hiff⟩
      · -- The call is skipped, so the last one that read is among those before it.
        obtain ⟨before, last, later, hcalls, hread, hlater, htables, hcomplete⟩ := ih hprior
        rw [hsame]
        refine ⟨before, last, later ++ [call], ?_, hread, ?_, htables, hcomplete⟩
        · rw [hcalls, List.append_assoc, List.cons_append]
        · intro c hc
          rcases List.mem_append.mp hc with hc | hc
          · exact hlater c hc
          · rw [List.mem_singleton.mp hc]
            exact hforce
      · refine ⟨calls, call, [], rfl, hread, by simp, htables, ?_⟩
        rcases hiff.mp hloaded with hprior | hcompletes
        · right
          have hforce : call.force = true := by simpa [hprior] using hread
          have hearlier : ∃ c ∈ calls, c.Completes := by
            simpa [hstart] using (afterAll_loaded s calls).mp hprior
          exact ⟨hforce, hearlier⟩
        · exact Or.inl hcompletes

-- The second call fails in its third line and leaves a tag. The third call does nothing.
theorem afterAll_tables_abandoned :
    let files : FileSet := .ofList [("good", .ofLines ["[verbal_tags]", "VB"]),
      ("bad", .ofLines ["[verbal_tags]", "MD", "[nouns]"])]
    let calls : List Call := [⟨files, "good", false⟩, ⟨files, "bad", true⟩, ⟨files, "good", false⟩]
    initial.loaded = false ∧ (initial.afterAll calls).loaded = true ∧
      ∃ before call later, calls = before ++ call :: later ∧
        (call.force = true ∨ (initial.afterAll before).loaded = false) ∧
          (∀ c ∈ later, c.force = false) ∧ (initial.afterAll calls).tables = call.tables ∧
            (call.Completes ∨ call.force = true ∧ ∃ c ∈ before, c.Completes) := by
  intro files calls
  have hstart : initial.loaded = false := rfl
  have hloaded : (initial.afterAll calls).loaded = true := by decide +kernel
  exact ⟨hstart, hloaded, afterAll_tables hstart hloaded⟩

-- A configuration counts as loaded, and the tables are not those of the one that was read to its
-- end but those of the one that was not.
theorem loaded_of_abandoned :
    let files : FileSet := .ofList [("good", .ofLines ["[verbal_tags]", "VB"]),
      ("bad", .ofLines ["[verbal_tags]", "MD", "[nouns]"])]
    let good : Call := ⟨files, "good", false⟩
    let bad : Call := ⟨files, "bad", true⟩
    let s := initial.afterAll [good, bad]
    s.loaded = true ∧ s.tables.verbalTags.words = ["MD"] ∧ ¬bad.Completes ∧ good.Completes ∧
      good.tables.verbalTags.words = ["VB"] ∧
        (s.after good).tables.verbalTags.words = ["MD"] := by
  decide +kernel

end Settings

end HeadPercolation.Config
