import HeadPercolation.Proofs.Config.History
import HeadPercolation.Proofs.Finder.Rules

namespace HeadPercolation.Config

def directionNames : List String :=
  ["left", "right", "leftdis", "rightdis", "leftexcept", "rightexcept"]

-- Can a finder work with the directives of a category? It needs one at least, and each must have
-- the name of a direction.
def AreUsable (ds : List Directive) : Prop :=
  ds ≠ [] ∧ ∀ d ∈ ds, d.written.direction ∈ directionNames

-- Can it work with all that is known of categories?
def AllUsable (known : String → Option (List Directive)) : Prop :=
  ∀ category ds, known category = some ds → AreUsable ds

structure Tables.HasUsableRules (tables : Tables) : Prop where
  headRules : AllUsable tables.headRules.get?
  semanticHeadRules : AllUsable tables.semanticHeadRules.get?

theorem areUsable_iff {ds : List Directive} : AreUsable ds ↔ ds ≠ [] := by
  refine and_iff_left_of_imp fun _ d _ => ?_
  have hname (direction : Direction) : direction.name ∈ directionNames := by
    obtain ⟨edge, selection⟩ := direction
    cases edge <;> cases selection <;> decide
  exact hname d.direction

section Line

variable {line : String} {table table' : Table (List Directive)}
  {known : String → Option (List Directive)}

-- A line that is no alias has a directive, since what stands behind its category has one part at
-- least.
theorem RuleLine.parse_rules_ne_nil {category : String} {ds : List Directive}
    (h : RuleLine.parse line = .ok (.rules category ds)) : ds ≠ [] := by
  unfold parse at h
  split at h
  · dsimp only at h
    split at h <;> cases h
  · split at h
    · cases h
    · rename_i word rest hword
      dsimp only at h
      split at h
      · cases h
      · obtain ⟨ds', hparts, h⟩ := bind_eq_ok.mp h
        cases h
        rintro rfl
        have hlength := (mapM_eq_ok.mp hparts).length_eq
        exact List.splitOn_ne_nil _ _ (List.length_eq_zero_iff.mp hlength)

-- A line that is accepted puts one entry into the table. Its directives are those of the line, or
-- else those that are known for the category that the line refers to.
theorem addRuleLine_eq_ok (h : addRuleLine table known line = .ok table') :
    ∃ category ds, table' = table.insert category ds ∧
      (ds ≠ [] ∨ ∃ other, known other = some ds) := by
  obtain ⟨parsed, hparsed, h⟩ := bind_eq_ok.mp h
  obtain ⟨⟨category, ds⟩, hentry, h⟩ := bind_eq_ok.mp h
  cases h
  refine ⟨category, ds, rfl, ?_⟩
  cases parsed with
  | rules category' ds' =>
      cases hentry
      exact Or.inl (RuleLine.parse_rules_ne_nil hparsed)
  | copy category' other =>
      right
      simp only [RuleLine.entry] at hentry
      split at hentry
      · cases hentry
      · rename_i ds' hknown
        cases hentry
        exact ⟨other, hknown⟩

theorem AllUsable.addRuleLine (htable : AllUsable table.get?) (hknown : AllUsable known)
    (h : addRuleLine table known line = .ok table') : AllUsable table'.get? := by
  obtain ⟨category, ds, rfl, hds⟩ := addRuleLine_eq_ok h
  have hnew : AreUsable ds := by
    rcases hds with hne | ⟨other, hother⟩
    · exact areUsable_iff.mpr hne
    · exact hknown other ds hother
  intro key value hvalue
  rw [Table.get?_insert] at hvalue
  split at hvalue
  · cases hvalue
    exact hnew
  · exact htable key value hvalue

end Line

-- A change of settings: a configuration is read, a section takes up a line, or a line is added to
-- one of the two tables of head rules, from which alone it can then take directives.
inductive Change
  | read (call : Call)
  | line (current : Section) (text : String)
  | headRule (text : String)
  | semanticHeadRule (text : String)

namespace Settings

-- A single line that is refused changes nothing.
def change (s : Settings) : Change → Settings
  | .read call => s.after call
  | .line current text => (s.handle text current).toOption.getD s
  | .headRule text =>
    let added := addRuleLine s.tables.headRules s.tables.headRules.get? text
    { s with tables.headRules := added.toOption.getD s.tables.headRules }
  | .semanticHeadRule text =>
    let added := addRuleLine s.tables.semanticHeadRules s.tables.semanticHeadRules.get? text
    { s with tables.semanticHeadRules := added.toOption.getD s.tables.semanticHeadRules }

def changeAll (s : Settings) (changes : List Change) : Settings :=
  changes.foldl change s

variable {s s' : Settings} {line : String}

theorem assign_headRules (h : s.assign line = .ok s') :
    s'.tables.headRules = s.tables.headRules ∧
      s'.tables.semanticHeadRules = s.tables.semanticHeadRules := by
  unfold assign at h
  split at h
  · cases h
  · dsimp only at h
    split at h
    · split at h <;> cases h <;> exact ⟨rfl, rfl⟩
    · split at h <;> cases h <;> exact ⟨rfl, rfl⟩
    · cases h

-- An alias in the semantic table can refer to either table.
theorem semanticRules?_allUsable (hs : s.tables.HasUsableRules) : AllUsable s.semanticRules? := by
  intro category ds h
  rcases Option.or_eq_some_iff.mp h with hsemantic | ⟨-, hhead⟩
  · exact hs.semanticHeadRules category ds hsemantic
  · exact hs.headRules category ds hhead

theorem handle_hasUsableRules {current : Section} (hs : s.tables.HasUsableRules)
    (h : s.handle line current = .ok s') : s'.tables.HasUsableRules := by
  cases current with
  | settings =>
      obtain ⟨hhead, hsemantic⟩ := assign_headRules h
      exact ⟨hhead ▸ hs.headRules, hsemantic ▸ hs.semanticHeadRules⟩
  | words list =>
      cases h
      cases list <;> exact ⟨hs.headRules, hs.semanticHeadRules⟩
  | headRules =>
      obtain ⟨table, htable, h⟩ := bind_eq_ok.mp h
      cases h
      exact ⟨hs.headRules.addRuleLine hs.headRules htable, hs.semanticHeadRules⟩
  | semanticHeadRules =>
      obtain ⟨table, htable, h⟩ := bind_eq_ok.mp h
      cases h
      have hknown := semanticRules?_allUsable hs
      exact ⟨hs.headRules, hs.semanticHeadRules.addRuleLine hknown htable⟩

theorem takeLine_hasUsableRules {current next : Option Section} {text : String}
    (hs : s.tables.HasUsableRules) (h : s.takeLine current text = .ok (s', next)) :
    s'.tables.HasUsableRules := by
  unfold takeLine at h
  split at h
  · cases h
    exact hs
  · split at h
    · split at h <;> cases h
      exact hs
    · dsimp only at h
      split at h
      · cases h
      · obtain ⟨taken, htaken, heq⟩ := map_eq_ok.mp h
        cases heq
        exact handle_hasUsableRules hs htaken

-- The lines may be abandoned at any of them.
theorem takeLines_hasUsableRules (hs : s.tables.HasUsableRules) (current : Option Section)
    (lines : List Line) : (s.takeLines current lines).1.tables.HasUsableRules := by
  induction lines generalizing s current with
  | nil => exact hs
  | cons line lines ih =>
      unfold takeLines
      split
      · exact hs
      · rename_i taken next htaken
        exact ih (takeLine_hasUsableRules hs htaken) next

theorem empty_hasUsableRules : Tables.empty.HasUsableRules := by
  constructor <;> rintro category ds ⟨⟩

theorem reread_hasUsableRules (s : Settings) (files : FileSet) (name : String) :
    (s.reread files name).1.tables.HasUsableRules := by
  have hlines := takeLines_hasUsableRules (s := { s with tables := .empty }) empty_hasUsableRules
    none (Config.read files name).lines
  unfold reread
  dsimp only
  split
  · rename_i error htaken
    rwa [htaken] at hlines
  · rename_i htaken
    rw [htaken] at hlines
    split <;> exact hlines

theorem after_hasUsableRules (hs : s.tables.HasUsableRules) (call : Call) :
    (s.after call).tables.HasUsableRules := by
  unfold after read
  split
  · exact hs
  · exact s.reread_hasUsableRules call.files call.name

theorem change_hasUsableRules (hs : s.tables.HasUsableRules) (c : Change) :
    (s.change c).tables.HasUsableRules := by
  cases c with
  | read call => exact after_hasUsableRules hs call
  | line current text =>
      rw [change]
      cases h : s.handle text current with
      | error e => exact hs
      | ok s' => exact handle_hasUsableRules hs h
  | headRule text =>
      rw [change]
      cases h : addRuleLine s.tables.headRules s.tables.headRules.get? text with
      | error e => exact hs
      | ok table => exact ⟨hs.headRules.addRuleLine hs.headRules h, hs.semanticHeadRules⟩
  | semanticHeadRule text =>
      rw [change]
      cases h : addRuleLine s.tables.semanticHeadRules s.tables.semanticHeadRules.get? text with
      | error e => exact hs
      | ok table =>
          exact ⟨hs.headRules, hs.semanticHeadRules.addRuleLine hs.semanticHeadRules h⟩

theorem changeAll_hasUsableRules (hs : s.tables.HasUsableRules) (changes : List Change) :
    (s.changeAll changes).tables.HasUsableRules := by
  induction changes generalizing s with
  | nil => exact hs
  | cons c changes ih => exact ih (change_hasUsableRules hs c)

end Settings

end HeadPercolation.Config
