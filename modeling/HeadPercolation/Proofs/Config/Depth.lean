import HeadPercolation.Proofs.Config.Faults

namespace HeadPercolation.Config

-- Readers stood in each other as deep as they could, and there was another file to be opened.
def Reading.IsTooDeep (r : Reading) : Prop :=
  r.failure = some .includesTooDeep

-- More depth makes no difference, unless there was too little: then the reading goes on from where
-- it ended.
def Reading.GoesOn (r deeper : Reading) : Prop :=
  deeper = r ∨ r.IsTooDeep ∧ r.lines <+: deeper.lines

theorem Reading.goesOn_refl (r : Reading) : r.GoesOn r :=
  Or.inl rfl

theorem Reading.GoesOn.lines {r deeper : Reading} (h : r.GoesOn deeper) :
    r.lines <+: deeper.lines := by
  rcases h with rfl | ⟨-, hlines⟩
  · exact List.prefix_rfl
  · exact hlines

theorem Reading.GoesOn.trans {r deeper deepest : Reading} (h : r.GoesOn deeper)
    (h' : deeper.GoesOn deepest) : r.GoesOn deepest := by
  rcases h with rfl | ⟨hdeep, hlines⟩
  · exact h'
  · exact Or.inr ⟨hdeep, hlines.trans h'.lines⟩

theorem Reading.GoesOn.within {r deeper : Reading} (h : r.GoesOn deeper) (position : Position) :
    (r.within position).GoesOn (deeper.within position) := by
  rcases h with rfl | ⟨hdeep, hlines⟩
  · exact Or.inl rfl
  · exact Or.inr ⟨hdeep, hlines.map _⟩

variable {files : FileSet} {name : String}

section Entries

variable {splice splice' : Position → String → Reading} {last : Nat} {entry : Entry}
  {before after entries : List Entry}

theorem lines_prefix_readEntries :
    (entry.read splice name).lines <+: (readEntries splice name last (entry :: entries)).lines := by
  cases hentry : (entry.read splice name).failure with
  | none =>
      rw [readEntries_cons hentry]
      exact List.prefix_append _ _
  | some failure =>
      exact ⟨[], by rw [readEntries_cons_of_failure hentry, List.append_nil]⟩

theorem Entry.read_goesOn
    (h : ∀ position target, (splice position target).GoesOn (splice' position target))
    (entry : Entry) (name : String) :
    (entry.read splice name).GoesOn (entry.read splice' name) := by
  cases entry with
  | undecodable number => exact Reading.goesOn_refl _
  | unfinished number text => exact Reading.goesOn_refl _
  | line number text =>
      unfold Entry.read
      dsimp only
      split
      · split
        · exact (h _ _).within _
        · exact Reading.goesOn_refl _
      · exact Reading.goesOn_refl _

theorem readEntries_goesOn
    (h : ∀ position target, (splice position target).GoesOn (splice' position target))
    (name : String) (last : Nat) (entries : List Entry) :
    (readEntries splice name last entries).GoesOn (readEntries splice' name last entries) := by
  induction entries with
  | nil => exact Reading.goesOn_refl _
  | cons entry entries ih =>
      rcases Entry.read_goesOn h entry name with hsame | ⟨hdeep, hlines⟩
      · cases hentry : (entry.read splice name).failure with
        | some failure =>
            rw [readEntries_cons_of_failure hentry, readEntries_cons_of_failure (hsame ▸ hentry)]
            exact Or.inl hsame
        | none =>
            rw [readEntries_cons hentry, readEntries_cons (hsame ▸ hentry), hsame]
            rcases ih with hrest | ⟨hdeep, hlines⟩
            · rw [hrest]
              exact Reading.goesOn_refl _
            · exact Or.inr ⟨hdeep, (List.prefix_append_right_inj _).mpr hlines⟩
      · rw [readEntries_cons_of_failure hdeep]
        exact Or.inr ⟨hdeep, hlines.trans lines_prefix_readEntries⟩

end Entries

theorem readDown_goesOn_succ (depth : Nat) (includer : Option Position) (name : String) :
    (readDown files depth includer name).GoesOn (readDown files (depth + 1) includer name) := by
  induction depth generalizing includer name with
  | zero => exact Or.inr ⟨rfl, List.nil_prefix⟩
  | succ depth ih =>
      cases hfile : files.opened name with
      | error error =>
          rw [readDown, readDown, hfile]
          exact Reading.goesOn_refl _
      | ok file =>
          rw [readDown_succ hfile, readDown_succ hfile]
          exact readEntries_goesOn (fun position target => ih (some position) target) _ _ _

theorem readDown_goesOn {depth deeper : Nat} (h : depth ≤ deeper) (includer : Option Position)
    (name : String) :
    (readDown files depth includer name).GoesOn (readDown files deeper includer name) := by
  induction deeper, h using Nat.le_induction with
  | base => exact Reading.goesOn_refl _
  | succ deeper _ ih => exact ih.trans (readDown_goesOn_succ deeper includer name)

theorem readDown_failure_cases (hfiles : AreText files) (depth : Nat) (includer : Option Position)
    (name : String) :
    (readDown files depth includer name).failure = none ∨
      (∃ fault, (readDown files depth includer name).failure = some (.missing fault)) ∨
        (readDown files depth includer name).failure = some .includeWithoutName ∨
          (readDown files depth includer name).failure = some .malformedName ∨
            (readDown files depth includer name).IsTooDeep := by
  cases hfailure : (readDown files depth includer name).failure with
  | none => exact Or.inl rfl
  | some failure =>
      right
      cases failure with
      | missing fault => exact Or.inl ⟨fault, rfl⟩
      | includeWithoutName => exact Or.inr (Or.inl rfl)
      | malformedName => exact Or.inr (Or.inr (Or.inl rfl))
      | includesTooDeep => exact Or.inr (Or.inr (Or.inr hfailure))
      | undecodable =>
          rcases readDown_meets_failure hfiles hfailure (by simp) with
            ⟨error, -, hfault⟩ | ⟨last, number, text, -, hstops⟩
          · cases error <;> cases hfault
          · cases hstops with
            | @unopened target error _ _ _ _ hfault => cases error <;> cases hfault

namespace Settings

-- Takes up what was read, in place of what was read before it.
def takeReading (s : Settings) (reading : Reading) : Settings × Option ReadError :=
  match { s with tables := .empty }.takeLines none reading.lines with
  | (s, some error) => (s, some error)
  | (s, none) =>
    match reading.failure with
    | some failure => (s, some (failed reading.stop failure))
    | none => ({ s with loaded := true }, none)

theorem read_eq_takeReading (s : Settings) (files : FileSet) (name : String) :
    s.read files name true = s.takeReading (Config.read files name) := by
  rw [read, Bool.not_true, Bool.and_false]
  rfl

-- All lines are taken up, and the reading ends as it does, or else a line is refused.
theorem takeReading_cases (s : Settings) (r : Reading) :
    (∃ s' current, { s with tables := .empty }.takeAll none (r.lines.map Line.placed) =
        .ok (s', current) ∧ (s.takeReading r).2 = r.failure.map (failed r.stop)) ∨
      ∃ before line after s' current error, r.lines = before ++ line :: after ∧
        { s with tables := .empty }.takeAll none (before.map Line.placed) = .ok (s', current) ∧
          s'.takeLine current line.text = .error error ∧
            s.takeReading r = (s', some (placed line.position error)) := by
  unfold takeReading
  rcases takeLines_cases { s with tables := .empty } none r.lines with
    ⟨s', current, hall, hlines⟩ |
    ⟨before, line, after, s', current, error, hsplit, hbefore, herror, hlines⟩
  · refine Or.inl ⟨s', current, hall, ?_⟩
    rw [hlines]
    cases r.failure <;> rfl
  · rw [hlines]
    exact Or.inr ⟨before, line, after, s', current, error, hsplit, hbefore, herror, rfl⟩

theorem isTooDeep_of_takeReading {s : Settings} {r : Reading}
    (h : (s.takeReading r).2 = some .includesTooDeep) : r.IsTooDeep := by
  rcases s.takeReading_cases r with ⟨s', current, -, hends⟩ |
    ⟨before, line, after, s', current, error, -, -, -, hrefused⟩
  · rw [h, eq_comm, Option.map_eq_some_iff] at hends
    obtain ⟨failure, hfailure, hdeep⟩ := hends
    cases failure <;> cases hdeep
    exact hfailure
  · rw [hrefused] at h
    cases error <;> cases h

theorem takeLines_append_of_error {s s' : Settings} {current : Option Section}
    {before : List Line} {error : ReadError}
    (h : s.takeLines current before = (s', some error)) (after : List Line) :
    s.takeLines current (before ++ after) = (s', some error) := by
  induction before generalizing s current with
  | nil => cases h
  | cons line before ih =>
      rw [takeLines] at h
      rw [List.cons_append, takeLines]
      split
      · rename_i refused hrefused
        rw [hrefused] at h
        exact h
      · rename_i next opened htaken
        rw [htaken] at h
        exact ih h

-- What became of the settings stays so in more depth, unless there was too little of it.
theorem takeReading_goesOn {r deeper : Reading} (h : r.GoesOn deeper) (s : Settings) :
    (s.takeReading r).2 = some .includesTooDeep ∨ s.takeReading deeper = s.takeReading r := by
  rcases h with rfl | ⟨hdeep, rest, hlines⟩
  · exact Or.inr rfl
  · unfold takeReading
    cases htaken : { s with tables := .empty }.takeLines none r.lines with
    | mk s' refused =>
        cases refused with
        | none => exact Or.inl (by rw [hdeep]; rfl)
        | some error =>
            rw [← hlines, takeLines_append_of_error htaken rest]
            exact Or.inr rfl

end Settings

end HeadPercolation.Config
