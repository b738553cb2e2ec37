import HeadPercolation.Config.Settings
import HeadPercolation.Proofs.Config.Failures
import HeadPercolation.Proofs.Results

namespace HeadPercolation.Config

-- What an entry yields as it stands: the text of a line that includes nothing, and its number.
inductive Entry.Yields : Entry → Nat → String → Prop where
  | line {number : Nat} {text : List Char} (htext : ∀ target, ¬IsIncludeOf text target) :
      Yields (.line number text) number (String.ofList text)
  | unfinished {number : Nat} {text : List Char} :
      Yields (.unfinished number text) number (String.ofList text)

-- A reader of the file `name` has passed over the lines, and then it meets the entry of the file
-- `last`: an entry of the first file, or one that it meets inside an included file.
inductive Meets (files : FileSet) :
    String → List (Position × String) → String → Entry → Prop where
  | here {name : String} {file : File} {before after : List Entry} {entry : Entry}
      {lines : List (Position × String)} (hfile : files.opened name = .ok file)
      (hentries : Divides 0 file (before ++ entry :: after))
      (hbefore : Expands files name before lines) : Meets files name lines name entry
  | inside {name target last : String} {file : File} {before after : List Entry} {entry : Entry}
      {number : Nat} {text : List Char} {lines innerLines : List (Position × String)}
      (hfile : files.opened name = .ok file)
      (hentries : Divides 0 file (before ++ .line number text :: after))
      (hbefore : Expands files name before lines) (htext : IsIncludeOf text target)
      (hne : target ≠ "") (hinner : Meets files (nameBeside name target) innerLines last entry) :
      Meets files name (lines ++ innerLines) last entry

variable {files : FileSet} {name : String}

theorem nameBeside_ne_empty (file : String) {target : String} (h : target ≠ "") :
    nameBeside file target ≠ "" := by
  have hlist : target.toList ≠ [] := fun hnil => h (String.toList_eq_nil_iff.mp hnil)
  rw [nameBeside, ne_eq, String.ofList_eq_empty_iff, joinName]
  split
  · exact hlist
  · split <;> simp [h]

-- Only a reader of a file without a name meets an entry of such a file.
theorem Meets.ne_empty {lines : List (Position × String)} {last : String} {entry : Entry}
    (h : Meets files name lines last entry) (hname : name ≠ "") : last ≠ "" := by
  induction h with
  | here => exact hname
  | inside _ _ _ _ hne _ ih => exact ih (nameBeside_ne_empty _ hne)

-- An element of two lists in a row is in the first one, or it is in the second one behind all of
-- the first.
theorem append_eq_append_cons {α : Type} {xs ys before after : List α} {x : α}
    (h : xs ++ ys = before ++ x :: after) :
    (∃ rest, xs = before ++ x :: rest) ∨
      ∃ middle, before = xs ++ middle ∧ ys = middle ++ x :: after := by
  rcases List.append_eq_append_iff.mp h with ⟨middle, hbefore, hys⟩ | ⟨rest, hxs, hafter⟩
  · exact Or.inr ⟨middle, hbefore, hys⟩
  · rcases List.cons_eq_append_iff.mp hafter with ⟨rfl, hys⟩ | ⟨rest', rfl, -⟩
    · exact Or.inr ⟨[], by simpa using hxs.symm, hys⟩
    · exact Or.inl ⟨rest', hxs⟩

section Entries

variable {splice : Position → String → Reading} {last : Nat} {entries : List Entry}

-- A line that was read is one of those that an entry was read as, after entries that were read to
-- their end.
theorem exists_of_readEntries_lines {before after : List Line} {line : Line}
    (h : (readEntries splice name last entries).lines = before ++ line :: after) :
    ∃ passed entry later inside rest, entries = passed ++ entry :: later ∧
      (readEntries splice name last passed).failure = none ∧
        before = (readEntries splice name last passed).lines ++ inside ∧
          (entry.read splice name).lines = inside ++ line :: rest := by
  induction entries generalizing before with
  | nil => simp [readEntries] at h
  | cons entry entries ih =>
      cases hread : (entry.read splice name).failure with
      | some failure =>
          rw [readEntries_cons_of_failure hread] at h
          exact ⟨[], entry, entries, before, after, rfl, rfl, rfl, h⟩
      | none =>
          rw [readEntries_cons hread] at h
          rcases append_eq_append_cons h with ⟨rest, hfirst⟩ | ⟨middle, rfl, hmiddle⟩
          · exact ⟨[], entry, entries, before, rest, rfl, rfl, rfl, hfirst⟩
          · obtain ⟨passed, entry', later, inside, rest, rfl, hpassed, rfl, hline⟩ := ih hmiddle
            refine ⟨entry :: passed, entry', later, inside, rest, rfl, ?_, ?_, hline⟩
            · rw [readEntries_cons hread]
              exact hpassed
            · rw [readEntries_cons hread, List.append_assoc]

end Entries

theorem Reading.eq_of_ofLine_lines {position : Position} {text : List Char}
    {inside rest : List Line} {line : Line}
    (h : (ofLine position text).lines = inside ++ line :: rest) :
    inside = [] ∧ line.position = position ∧ line.text = String.ofList text := by
  rcases List.singleton_eq_append_iff.mp h with ⟨rfl, htail⟩ | ⟨-, htail⟩
  · cases htail
    exact ⟨rfl, rfl, rfl⟩
  · cases htail

-- A line that an entry is read as is the entry itself, or a line of the file that it includes.
theorem Entry.read_lines_cases {splice : Position → String → Reading} {entry : Entry}
    {inside rest : List Line} {line : Line}
    (h : (entry.read splice name).lines = inside ++ line :: rest) :
    (inside = [] ∧ line.position.file = name ∧ entry.Yields line.position.line line.text) ∨
      ∃ number text target, entry = .line number text ∧ IsIncludeOf text target ∧ target ≠ "" ∧
        ((splice ⟨name, number⟩ (nameBeside name target)).within ⟨name, number⟩).lines =
          inside ++ line :: rest := by
  cases entry with
  | undecodable number => simp [Entry.read, Reading.failed] at h
  | unfinished number text =>
      obtain ⟨rfl, hposition, htext⟩ := Reading.eq_of_ofLine_lines h
      rw [hposition, htext]
      exact Or.inl ⟨rfl, rfl, .unfinished⟩
  | line number text =>
      rcases Entry.read_line_cases splice name number text with
        ⟨hplain, hread⟩ | ⟨-, hread⟩ | ⟨target, htarget, hne, hread⟩
      · rw [hread] at h
        obtain ⟨rfl, hposition, htext⟩ := Reading.eq_of_ofLine_lines h
        rw [hposition, htext]
        exact Or.inl ⟨rfl, rfl, .line hplain⟩
      · simp [hread, Reading.failed] at h
      · rw [hread] at h
        exact Or.inr ⟨number, text, target, rfl, htarget, hne, h⟩

-- As it yields a line, the reader is at the place where it met the line.
theorem readDown_meets_line (hfiles : AreText files) {depth : Nat} {includer : Option Position}
    {before after : List Line} {line : Line}
    (h : (readDown files depth includer name).lines = before ++ line :: after) :
    ∃ entry, Meets files name (before.map Line.placed) line.position.file entry ∧
      entry.Yields line.position.line line.text := by
  induction depth generalizing name includer before line after with
  | zero => simp [readDown, Reading.failed] at h
  | succ depth ih =>
      cases hfile : files.opened name with
      | error error => simp [readDown, hfile, Reading.failed] at h
      | ok file =>
          rw [readDown_succ hfile] at h
          obtain ⟨passed, entry, later, inside, rest, hentries, hpassed, rfl, hline⟩ :=
            exists_of_readEntries_lines h
          have hdivides : Divides 0 file (passed ++ entry :: later) :=
            hentries ▸ hfiles.divides hfile
          have hexpands := (splicesExpansions_readDown depth).expands hpassed
          rcases Entry.read_lines_cases hline with ⟨rfl, hname, hyields⟩ |
            ⟨number, text, target, rfl, htarget, hne, hinside⟩
          · rw [hname, List.append_nil]
            exact ⟨entry, .here hfile hdivides hexpands, hyields⟩
          · obtain ⟨inner, tail, hinner, rfl, htail⟩ := List.map_eq_append_iff.mp hinside
            obtain ⟨line, innerRest, rfl, rfl, -⟩ := List.map_eq_cons_iff.mp htail
            obtain ⟨entry, hmeets, hyields⟩ := ih hinner
            rw [List.map_append, Line.map_placed_around]
            exact ⟨entry, .inside hfile hdivides hexpands htarget hne hmeets, hyields⟩

theorem readDown_lines_of_unopened {error : OpenError} (h : files.opened name = .error error)
    (depth : Nat) (includer : Option Position) : (readDown files depth includer name).lines = [] := by
  cases depth with
  | zero => rfl
  | succ depth =>
      rw [readDown, h]
      rfl

-- Why a reader cannot go on at a line that includes a file: it does not name the file, or the file
-- is not opened, and if it is missing, the fault is placed at the line.
inductive Stops (files : FileSet) (name : String) (number : Nat) (text : List Char) :
    Failure → Prop where
  | nameless (htext : IsIncludeOf text "") : Stops files name number text .includeWithoutName
  | unopened {target : String} {error : OpenError} {failure : Failure}
      (htext : IsIncludeOf text target) (hne : target ≠ "")
      (hfile : files.opened (nameBeside name target) = .error error)
      (hfailure : error.failure (some ⟨name, number⟩) (nameBeside name target) = failure) :
      Stops files name number text failure

-- Unless there is too little depth, a reader that fails has met a line where it cannot go on, or
-- else its own file is not opened.
theorem readDown_meets_failure (hfiles : AreText files) {depth : Nat} {includer : Option Position}
    {failure : Failure} (h : (readDown files depth includer name).failure = some failure)
    (hdeep : failure ≠ .includesTooDeep) :
    (∃ error, files.opened name = .error error ∧ error.failure includer name = failure) ∨
      ∃ last number text,
        Meets files name ((readDown files depth includer name).lines.map Line.placed) last
          (.line number text) ∧ Stops files last number text failure := by
  induction depth generalizing includer name with
  | zero =>
      cases h
      exact absurd rfl hdeep
  | succ depth ih =>
      have hsplice : SplicesExpansions files (readIncluded files depth) :=
        splicesExpansions_readDown depth
      cases fails_of_readDown hfiles h with
      | unopened hfile hfailure => exact Or.inl ⟨_, hfile, hfailure⟩
      | nameless hfile hentries hbefore htext =>
          have hread := read_of_nameless htext (readIncluded files depth) name
          obtain ⟨-, hlines⟩ := readDown_of_entry_failure hfile hentries hbefore
            (by rw [hread]; rfl) includer
          rw [hlines, hread, Reading.failed, List.append_nil]
          exact Or.inr ⟨name, _, _, .here hfile hentries (hsplice.expands hbefore), .nameless htext⟩
      | included hfile hentries hbefore htext hne hinner =>
          right
          have hread := read_of_isIncludeOf htext hne (readIncluded files depth) name
          obtain ⟨-, hlines⟩ := readDown_of_entry_failure hfile hentries hbefore
            (by rw [hread]; exact hinner) includer
          rw [hlines, hread, List.map_append, Reading.map_placed_within]
          rcases ih hinner with ⟨error, hunopened, rfl⟩ | ⟨last, number, text, hmeets, hstops⟩
          · rw [readIncluded, readDown_lines_of_unopened hunopened, List.map_nil, List.append_nil]
            exact ⟨name, _, _, .here hfile hentries (hsplice.expands hbefore),
              .unopened htext hne hunopened rfl⟩
          · exact ⟨last, number, text,
              .inside hfile hentries (hsplice.expands hbefore) htext hne hmeets, hstops⟩

section OpenError

variable {error : OpenError} {includer : Option Position}

-- Only a file that is missing is a fault.
theorem OpenError.eq_missing_of_failure {fault : Located Fault}
    (h : error.failure includer name = .missing fault) :
    error = .missing ∧ fault = missingFile includer name := by
  cases error with
  | missing =>
      cases h
      exact ⟨rfl, rfl⟩
  | malformed => cases h

theorem OpenError.eq_malformed_of_failure
    (h : error.failure includer name = .malformedName) : error = .malformed := by
  cases error with
  | missing => cases h
  | malformed => rfl

end OpenError

theorem readDown_meets_missing (hfiles : AreText files) {depth : Nat}
    {includer : Option Position} {fault : Located Fault}
    (h : (readDown files depth includer name).failure = some (.missing fault)) :
    (files.opened name = .error .missing ∧ fault = missingFile includer name) ∨
      ∃ last number text target,
        Meets files name ((readDown files depth includer name).lines.map Line.placed) last
          (.line number text) ∧
        IsIncludeOf text target ∧ target ≠ "" ∧
          files.opened (nameBeside last target) = .error .missing ∧
            fault = missingFile (some ⟨last, number⟩) (nameBeside last target) := by
  rcases readDown_meets_failure hfiles h (by simp) with ⟨error, hunopened, hfault⟩ |
    ⟨last, number, text, hmeets, hstops⟩
  · obtain ⟨rfl, rfl⟩ := OpenError.eq_missing_of_failure hfault
    exact Or.inl ⟨hunopened, rfl⟩
  · cases hstops with
    | unopened htext hne hunopened hfault =>
        obtain ⟨rfl, rfl⟩ := OpenError.eq_missing_of_failure hfault
        exact Or.inr ⟨last, number, text, _, hmeets, htext, hne, hunopened, rfl⟩

namespace Settings

-- Takes up lines as long as none is refused.
def takeAll (s : Settings) (current : Option Section) (lines : List (Position × String)) :
    Except LineError (Settings × Option Section) :=
  lines.foldlM (fun (s, current) line => s.takeLine current line.2) (s, current)

theorem takeAll_append {s : Settings} {current : Option Section}
    {before after : List (Position × String)} :
    s.takeAll current (before ++ after) =
      (s.takeAll current before >>= fun (s, current) => s.takeAll current after) :=
  List.foldlM_append

theorem takeAll_cons {s : Settings} {current : Option Section} {line : Position × String}
    {lines : List (Position × String)} :
    s.takeAll current (line :: lines) =
      (s.takeLine current line.2 >>= fun (s, current) => s.takeAll current lines) :=
  List.foldlM_cons

-- Only the texts of the lines count, and not their places.
theorem takeAll_eq_foldlM {s : Settings} {current : Option Section}
    {lines : List (Position × String)} :
    s.takeAll current lines =
      (lines.map Prod.snd).foldlM (fun (s, current) text => s.takeLine current text)
        (s, current) := by
  rw [List.foldlM_map]
  rfl

-- No line is refused among those that are taken up.
theorem exists_takeLine_of_takeAll {s t : Settings} {current opened : Option Section}
    {before after : List (Position × String)} {line : Position × String}
    {r : Settings × Option Section} (h : s.takeAll current (before ++ line :: after) = .ok r)
    (hbefore : s.takeAll current before = .ok (t, opened)) :
    ∃ taken, t.takeLine opened line.2 = .ok taken := by
  rw [takeAll_append, bind_of_eq_ok hbefore] at h
  obtain ⟨taken, htaken, -⟩ := bind_eq_ok.mp (takeAll_cons.symm.trans h)
  exact ⟨taken, htaken⟩

-- All lines are taken up, or all before one that is refused, and the error is placed there.
theorem takeLines_cases (s : Settings) (current : Option Section) (lines : List Line) :
    (∃ s' last, s.takeAll current (lines.map Line.placed) = .ok (s', last) ∧
      s.takeLines current lines = (s', none)) ∨
    ∃ before line after s' last error, lines = before ++ line :: after ∧
      s.takeAll current (before.map Line.placed) = .ok (s', last) ∧
        s'.takeLine last line.text = .error error ∧
          s.takeLines current lines = (s', some (placed line.position error)) := by
  induction lines generalizing s current with
  | nil => exact Or.inl ⟨s, current, rfl, rfl⟩
  | cons line lines ih =>
      cases htake : s.takeLine current line.text with
      | error error =>
          refine Or.inr ⟨[], line, lines, s, current, error, rfl, rfl, htake, ?_⟩
          rw [takeLines, htake]
      | ok taken =>
          obtain ⟨next, opened⟩ := taken
          have hall (rest : List Line) : s.takeAll current ((line :: rest).map Line.placed) =
              next.takeAll opened (rest.map Line.placed) :=
            takeAll_cons.trans (bind_of_eq_ok htake)
          have hlines : s.takeLines current (line :: lines) = next.takeLines opened lines := by
            rw [takeLines, htake]
          rw [hlines]
          rcases ih next opened with ⟨s', last, hrest, hok⟩ |
            ⟨before, bad, after, s', last, error, rfl, hbefore, herror, hlines⟩
          · exact Or.inl ⟨s', last, by rw [hall, hrest], hok⟩
          · exact Or.inr ⟨line :: before, bad, after, s', last, error, rfl,
              by rw [hall, hbefore], herror, hlines⟩

end Settings

-- What a fault is blamed on, as the settings `s` take up the lines of a configuration: the first
-- line that they refuse, the line that includes a file that is not there, or the configuration
-- before its first line. All lines before that were taken up.
inductive IsBlamed (files : FileSet) (name : String) (s : Settings) : Located Fault → Prop where
  | line {lines : List (Position × String)} {file text : String} {number : Nat} {entry : Entry}
      {s' : Settings} {current : Option Section} {fault : Fault}
      (hmeets : Meets files name lines file entry) (hyields : entry.Yields number text)
      (hlines : s.takeAll none lines = .ok (s', current))
      (hline : s'.takeLine current text = .error (.fault fault)) :
      IsBlamed files name s ⟨fault, some file, number⟩
  | included {lines : List (Position × String)} {file target : String} {number : Nat}
      {text : List Char} {s' : Settings} {current : Option Section}
      (hmeets : Meets files name lines file (.line number text)) (htext : IsIncludeOf text target)
      (hne : target ≠ "") (hlines : s.takeAll none lines = .ok (s', current))
      (hmissing : files.opened (nameBeside file target) = .error .missing) :
      IsBlamed files name s ⟨.missingInclude (nameBeside file target), some file, number⟩
  | start (hmissing : files.opened name = .error .missing) :
      IsBlamed files name s ⟨.missingFile name, some name, 0⟩

theorem IsBlamed.isPlaced {s : Settings} {e : Located Fault} (h : IsBlamed files name s e)
    (hname : name ≠ "") : e.isPlaced = true := by
  cases h with
  | line hmeets => simpa [Located.isPlaced] using hmeets.ne_empty hname
  | included hmeets => simpa [Located.isPlaced] using hmeets.ne_empty hname
  | start => simpa [Located.isPlaced] using hname

theorem missingFile_some {position : Position} (hposition : position.file ≠ "") (other : String) :
    missingFile (some position) other =
      ⟨.missingInclude other, some position.file, position.line⟩ := by
  have hnot : ¬position.file.isEmpty = true := by simpa using hposition
  rw [missingFile, if_neg hnot]
  rfl

-- The readers that were around a missing file leave its fault where it was placed.
theorem isBlamed_of_missing {s s' : Settings} {current : Option Section} {fault e : Located Fault}
    (hname : name ≠ "") (hfiles : AreText files)
    (hlines : s.takeAll none ((read files name).lines.map Line.placed) = .ok (s', current))
    (hmissing : (read files name).failure = some (.missing fault))
    (he : Settings.failed (read files name).stop (.missing fault) = .fault e) :
    IsBlamed files name s e := by
  obtain rfl : fault.locate (read files name).stop.file (read files name).stop.line = e := by
    cases he
    rfl
  rcases readDown_meets_missing hfiles hmissing with
    ⟨hfile, rfl⟩ | ⟨last, number, text, target, hmeets, htarget, hne, hother, rfl⟩
  · have hread : read files name =
        .failed ⟨name, 0⟩ (.missing (missingFile none name)) := by
      rw [read, readDown, hfile]
      rfl
    rw [hread]
    exact .start hfile
  · have hblamed : IsBlamed files name s
        (missingFile (some ⟨last, number⟩) (nameBeside last target)) := by
      rw [missingFile_some (hmeets.ne_empty hname)]
      exact .included hmeets htarget hne hlines hother
    rwa [Located.locate_of_isPlaced (hblamed.isPlaced hname)]

theorem isBlamed_of_reread {s : Settings} {e : Located Fault} (hname : name ≠ "")
    (hfiles : AreText files) (h : (s.reread files name).2 = some (.fault e)) :
    IsBlamed files name { s with tables := .empty } e := by
  unfold Settings.reread at h
  rcases Settings.takeLines_cases { s with tables := .empty } none (read files name).lines with
    ⟨s', last, hall, hlines⟩ | ⟨before, line, after, s', last, error, hsplit, hbefore, herror,
      hlines⟩
  · simp only [hlines] at h
    cases hfailure : (read files name).failure with
    | none =>
        rw [hfailure] at h
        cases h
    | some failure =>
        rw [hfailure] at h
        have he := Option.some.inj h
        cases failure with
        | missing fault => exact isBlamed_of_missing hname hfiles hall hfailure he
        | undecodable => cases he
        | includeWithoutName => cases he
        | malformedName => cases he
        | includesTooDeep => cases he
  · simp only [hlines] at h
    have he := Option.some.inj h
    cases error with
    | blankRule => cases he
    | fault fault =>
        cases he
        obtain ⟨entry, hmeets, hyields⟩ := readDown_meets_line hfiles hsplit
        exact .line hmeets hyields hbefore herror

-- A fault of a configuration is placed where it is to blame, and no later place replaces that.
theorem read_fault_isBlamed {s : Settings} {force : Bool} {e : Located Fault} (hname : name ≠ "")
    (hfiles : AreText files) (h : (s.read files name force).2 = some (.fault e)) :
    IsBlamed files name { s with tables := .empty } e ∧
      ∀ file line, e.locate file line = e := by
  have hblamed : IsBlamed files name { s with tables := .empty } e := by
    rw [Settings.read] at h
    split at h
    · cases h
    · exact isBlamed_of_reread hname hfiles h
  exact ⟨hblamed, Located.locate_of_isPlaced (hblamed.isPlaced hname)⟩

-- A line of two stored ones is at fault, two files down and in the directory of the second file.
theorem read_fault_isBlamed_inner :
    let files : FileSet := .ofList [
      ("main", .ofLines ["[settings]", "$include sub/a"]),
      ("sub/a", .ofLines ["debug = true", "$INCLUDE b"]),
      ("sub/b", .ofLines ["treat_copula_as_head = \\", "  maybe"])]
    let e : Located Fault := ⟨.notABoolean "treat_copula_as_head" "maybe", some "sub/b", 2⟩
    (Settings.initial.read files "main" true).2 = some (.fault e) ∧
      IsBlamed files "main" { Settings.initial with tables := .empty } e ∧
        ∀ file line, e.locate file line = e := by
  intro files e
  have hfiles : AreText files := FileSet.areText_ofList (by simp)
  have hread : (Settings.initial.read files "main" true).2 = some (.fault e) := by
    decide +kernel
  exact ⟨hread, read_fault_isBlamed (by decide) hfiles hread⟩

end HeadPercolation.Config
