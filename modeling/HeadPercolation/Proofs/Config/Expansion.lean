import HeadPercolation.Proofs.Config.Includes

namespace HeadPercolation.Config

-- A reader comes to files only that are there, as UTF-8, and whose include lines name a file. None
-- of them includes itself.
structure IsReadable (files : FileSet) (name : String) : Prop where
  present : ∀ other, Reaches files name other →
    ∃ file, files.opened other = .ok file ∧ IsText file
  named : ∀ other number text, Reaches files name other →
    HasEntry files other (.line number text) → ¬IsIncludeOf text ""
  acyclic : ∀ other, Reaches files name other → ¬IncludesItself files other

-- The expansion of entries of the file `name`: lines with their places, and in the place of an
-- include line the expansion of the file that it names.
inductive Expands (files : FileSet) :
    String → List Entry → List (Position × String) → Prop where
  | nil {name : String} : Expands files name [] []
  | line {name : String} {number : Nat} {text : List Char} {entries : List Entry}
      {lines : List (Position × String)} (htext : ∀ target, ¬IsIncludeOf text target)
      (hrest : Expands files name entries lines) :
      Expands files name (.line number text :: entries)
        ((⟨name, number⟩, String.ofList text) :: lines)
  | unfinished {name : String} {number : Nat} {text : List Char} {entries : List Entry}
      {lines : List (Position × String)} (hrest : Expands files name entries lines) :
      Expands files name (.unfinished number text :: entries)
        ((⟨name, number⟩, String.ofList text) :: lines)
  | included {name target : String} {number : Nat} {text : List Char} {file : File}
      {inner entries : List Entry} {innerLines lines : List (Position × String)}
      (htext : IsIncludeOf text target)
      (hfile : files.opened (nameBeside name target) = .ok file) (hinner : Divides 0 file inner)
      (hexpands : Expands files (nameBeside name target) inner innerLines)
      (hrest : Expands files name entries lines) :
      Expands files name (.line number text :: entries) (innerLines ++ lines)

def IsExpansion (files : FileSet) (name : String) (lines : List (Position × String)) : Prop :=
  ∃ file entries, files.opened name = .ok file ∧ Divides 0 file entries ∧
    Expands files name entries lines

-- What the reader says of the place of a line, and the line.
def Line.placed (line : Line) : Position × String :=
  (line.position, line.text)

variable {files : FileSet} {name : String}

theorem Divides.unique {number : Nat} {file : File} {entries entries' : List Entry}
    (h : Divides number file entries) (h' : Divides number file entries') : entries = entries' :=
  h.eq_entriesFrom.trans h'.eq_entriesFrom.symm

theorem IsIncludeOf.unique {text : List Char} {target target' : String}
    (h : IsIncludeOf text target) (h' : IsIncludeOf text target') : target = target' := by
  obtain ⟨word, rest, rfl, hword, rfl⟩ := h
  obtain ⟨word', rest', htext, hword', rfl⟩ := h'
  have hlength : word.length = word'.length := by
    rw [← List.length_map Char.toLower, hword, ← hword', List.length_map]
  obtain ⟨-, hrest⟩ := List.append_inj htext hlength
  rw [(List.cons.inj hrest).2]

theorem Expands.unique {entries : List Entry} {lines lines' : List (Position × String)}
    (h : Expands files name entries lines) (h' : Expands files name entries lines') :
    lines = lines' := by
  induction h generalizing lines' with
  | nil =>
      cases h'
      rfl
  | line htext _ ih =>
      cases h' with
      | line _ hrest => rw [ih hrest]
      | included hinclude => exact absurd hinclude (htext _)
  | unfinished _ ih =>
      cases h' with
      | unfinished hrest => rw [ih hrest]
  | included htext hfile hinner _ _ ihinner ih =>
      cases h' with
      | line hnone => exact absurd htext (hnone _)
      | included htext' hfile' hinner' hexpands' hrest' =>
          cases htext.unique htext'
          cases hfile.symm.trans hfile'
          cases hinner.unique hinner'
          rw [ihinner hexpands', ih hrest']

theorem IsExpansion.unique {lines lines' : List (Position × String)}
    (h : IsExpansion files name lines) (h' : IsExpansion files name lines') : lines = lines' := by
  obtain ⟨file, entries, hfile, hentries, hlines⟩ := h
  obtain ⟨file', entries', hfile', hentries', hlines'⟩ := h'
  cases hfile.symm.trans hfile'
  cases hentries.unique hentries'
  exact hlines.unique hlines'

theorem Line.map_placed_around (position : Position) (lines : List Line) :
    (lines.map fun line => { line with reader := .around position line.reader }).map Line.placed =
      lines.map Line.placed := by
  simp [Line.placed, Line.position, Reader.position]

theorem Reading.map_placed_within (position : Position) (r : Reading) :
    (r.within position).lines.map Line.placed = r.lines.map Line.placed :=
  Line.map_placed_around position r.lines

-- What can become of a line: it is yielded, or it fails to name a file, or the file that it names
-- is read.
theorem Entry.read_line_cases (splice : Position → String → Reading) (name : String) (number : Nat)
    (text : List Char) :
    ((∀ target, ¬IsIncludeOf text target) ∧
      (Entry.line number text).read splice name = .ofLine ⟨name, number⟩ text) ∨
    (IsIncludeOf text "" ∧
      (Entry.line number text).read splice name = .failed ⟨name, number⟩ .includeWithoutName) ∨
    ∃ target, IsIncludeOf text target ∧ target ≠ "" ∧
      (Entry.line number text).read splice name =
        (splice ⟨name, number⟩ (nameBeside name target)).within ⟨name, number⟩ := by
  by_cases hinclude : ∃ target, IsIncludeOf text target
  · obtain ⟨target, htarget⟩ := id hinclude
    right
    rw [Entry.read, if_pos (isInclude_iff.mpr hinclude), htarget.includedName?]
    by_cases hne : target = ""
    · left
      rw [if_pos hne]
      exact ⟨hne ▸ htarget, rfl⟩
    · right
      rw [if_neg hne]
      exact ⟨target, htarget, hne, rfl⟩
  · left
    rw [Entry.read, if_neg (isInclude_iff.not.mpr hinclude)]
    exact ⟨not_exists.mp hinclude, rfl⟩

theorem readEntries_cons {splice : Position → String → Reading} {last : Nat} {entry : Entry}
    {entries : List Entry} (h : (entry.read splice name).failure = none) :
    readEntries splice name last (entry :: entries) =
      { readEntries splice name last entries with
        lines := (entry.read splice name).lines ++ (readEntries splice name last entries).lines } := by
  rw [readEntries, h]

theorem readEntries_cons_of_failure {splice : Position → String → Reading} {last : Nat}
    {entry : Entry} {entries : List Entry} {failure : Failure}
    (h : (entry.read splice name).failure = some failure) :
    readEntries splice name last (entry :: entries) = entry.read splice name := by
  rw [readEntries, h]

-- Entries are read to their end just when each of them is.
theorem readEntries_failure_eq_none_iff {splice : Position → String → Reading} {last : Nat}
    {entries : List Entry} :
    (readEntries splice name last entries).failure = none ↔
      ∀ entry ∈ entries, (entry.read splice name).failure = none := by
  induction entries with
  | nil => simp [readEntries]
  | cons entry entries ih =>
      rw [List.forall_mem_cons, ← ih]
      cases hread : (entry.read splice name).failure with
      | none => simp [readEntries_cons hread]
      | some failure => simp [readEntries_cons_of_failure hread, hread]

theorem Expands.append {before after : List Entry} {lines lines' : List (Position × String)}
    (h : Expands files name before lines) (h' : Expands files name after lines') :
    Expands files name (before ++ after) (lines ++ lines') := by
  induction h with
  | nil => exact h'
  | line htext _ ih => exact .line htext (ih h')
  | unfinished _ ih => exact .unfinished (ih h')
  | included htext hfile hinner hexpands _ _ ih =>
      rw [List.append_assoc]
      exact .included htext hfile hinner hexpands (ih h')

-- What is read to its end is read as the expansion of the file.
def SplicesExpansions (files : FileSet) (splice : Position → String → Reading) : Prop :=
  ∀ position name, (splice position name).failure = none →
    IsExpansion files name ((splice position name).lines.map Line.placed)

theorem SplicesExpansions.expands_entry {splice : Position → String → Reading}
    (hsplice : SplicesExpansions files splice) {entry : Entry}
    (h : (entry.read splice name).failure = none) :
    Expands files name [entry] ((entry.read splice name).lines.map Line.placed) := by
  cases entry with
  | undecodable number => cases h
  | unfinished number text => exact .unfinished .nil
  | line number text =>
      rcases Entry.read_line_cases splice name number text with
        ⟨hplain, hread⟩ | ⟨-, hread⟩ | ⟨target, htarget, -, hread⟩
      · rw [hread]
        exact .line hplain .nil
      · rw [hread] at h
        cases h
      · rw [hread] at h ⊢
        obtain ⟨file, inner, hfile, hinner, hexpands⟩ := hsplice _ _ h
        rw [Reading.map_placed_within, ← List.append_nil (List.map _ _)]
        exact .included htarget hfile hinner hexpands .nil

theorem SplicesExpansions.expands {splice : Position → String → Reading}
    (hsplice : SplicesExpansions files splice) {last : Nat} {entries : List Entry}
    (h : (readEntries splice name last entries).failure = none) :
    Expands files name entries
      ((readEntries splice name last entries).lines.map Line.placed) := by
  induction entries with
  | nil => exact .nil
  | cons entry entries ih =>
      obtain ⟨hentry, hentries⟩ :=
        List.forall_mem_cons.mp (readEntries_failure_eq_none_iff.mp h)
      rw [readEntries_cons hentry, List.map_append]
      have hrest := ih (readEntries_failure_eq_none_iff.mpr hentries)
      exact (hsplice.expands_entry hentry).append hrest

theorem readDown_succ {file : File} {depth : Nat} (h : files.opened name = .ok file)
    (includer : Option Position) :
    readDown files (depth + 1) includer name =
      readEntries (fun position target => readDown files depth (some position) target) name
        file.length (entriesFrom 0 [] file) := by
  rw [readDown, h]

theorem readDown_expands (depth : Nat) (includer : Option Position) (name : String)
    (h : (readDown files depth includer name).failure = none) :
    IsExpansion files name ((readDown files depth includer name).lines.map Line.placed) := by
  induction depth generalizing includer name with
  | zero => cases h
  | succ depth ih =>
      cases hfile : files.opened name with
      | error error =>
          rw [readDown, hfile] at h
          cases h
      | ok file =>
          rw [readDown_succ hfile] at h ⊢
          have hentries := readEntries_failure_eq_none_iff.mp h
          have htext : IsText file := isText_of_entriesFrom fun number hmem => by
            cases hentries _ hmem
          have hsplice : SplicesExpansions files fun position target =>
              readDown files depth (some position) target :=
            fun position target => ih (some position) target
          exact ⟨file, _, hfile, (divides_iff htext).mpr rfl, hsplice.expands h⟩

theorem IsReadable.of_includes {other : String} (h : IsReadable files name)
    (hincludes : Includes files name other) : IsReadable files other where
  present last hlast := h.present last (.head hincludes hlast)
  named last number text hlast := h.named last number text (.head hincludes hlast)
  acyclic last hlast := h.acyclic last (.head hincludes hlast)

-- As long as fewer files are open than there are, a readable file is read to its end.
theorem IsReadable.readDown_failure {depth : Nat} {around : List (Fin files.count)}
    (h : IsReadable files name) (haround : IsOpenAround files around name)
    (hdepth : files.count < depth + around.length) (includer : Option Position) :
    (readDown files depth includer name).failure = none := by
  induction depth generalizing around name includer with
  | zero =>
      have hle := haround.length_le
      omega
  | succ depth ih =>
      obtain ⟨file, hfile, htext⟩ := h.present name .refl
      obtain ⟨i, hi, -⟩ := FileSet.exists_locate hfile
      have hdivides := (divides_iff htext).mpr (Eq.refl (entriesFrom 0 [] file))
      rw [readDown_succ hfile, readEntries_failure_eq_none_iff]
      intro entry hentry
      have hhas : HasEntry files name entry := ⟨file, _, hfile, hdivides, hentry⟩
      cases entry with
      | undecodable number => exact absurd hentry hdivides.undecodable_notMem
      | unfinished number text => rfl
      | line number text =>
          rcases Entry.read_line_cases
            (fun position target => readDown files depth (some position) target) name number text
            with ⟨-, hread⟩ | ⟨hnameless, -⟩ | ⟨target, htarget, hne, hread⟩
          · rw [hread]
            rfl
          · exact absurd hnameless (h.named name number text .refl hhas)
          · rw [hread]
            have hincludes : Includes files name (nameBeside name target) :=
              ⟨number, text, target, hhas, htarget, hne, rfl⟩
            have hinside := haround.cons hi (h.acyclic name .refl) hincludes
            exact ih (h.of_includes hincludes) hinside
              (by rw [List.length_cons]; omega) (some ⟨name, number⟩)

-- A readable file is read to its end, and what is read is its expansion and nothing else. As it
-- yields a line, the reader gives the file that the line stands in, and its number there.
theorem read_isExpansion_iff (h : IsReadable files name) :
    (read files name).failure = none ∧
      ∀ lines, IsExpansion files name lines ↔ (read files name).lines.map Line.placed = lines := by
  have hdepth : files.count < 3 * files.count + 1 + ([] : List (Fin files.count)).length := by
    rw [List.length_nil]
    omega
  have hfailure : (read files name).failure = none :=
    h.readDown_failure isOpenAround_nil hdepth none
  have hexpansion := readDown_expands _ _ _ hfailure
  refine ⟨hfailure, fun lines => ⟨fun hlines => hexpansion.unique hlines, ?_⟩⟩
  rintro rfl
  exact hexpansion

-- Some files with ranks, each of which includes only such of them as are of a lower rank.
def AreRanked (files : FileSet) (names : List String) (rank : String → Nat) : Prop :=
  ∀ other ∈ names, ∃ file, files.opened other = .ok file ∧ IsText file ∧
    ∀ named ∈ targetsOf file, ∃ target, named = some target ∧ nameBeside other target ∈ names ∧
      rank (nameBeside other target) < rank other

section AreRanked

variable {names : List String} {rank : String → Nat} {other : String}

theorem AreRanked.named (h : AreRanked files names rank) (hmem : other ∈ names) {number : Nat}
    {text : List Char} {target : String} (hline : HasEntry files other (.line number text))
    (htext : IsIncludeOf text target) :
    target ≠ "" ∧ nameBeside other target ∈ names ∧
      rank (nameBeside other target) < rank other := by
  obtain ⟨file, entries, hfile, hdivides, hentry⟩ := hline
  obtain ⟨file', hfile', -, htargets⟩ := h other hmem
  cases hfile.symm.trans hfile'
  rw [hdivides.eq_entriesFrom] at hentry
  obtain ⟨target', htarget', hnext⟩ := htargets _ (mem_targetsOf hentry htext)
  split at htarget'
  · cases htarget'
  · rename_i hne
    cases htarget'
    exact ⟨hne, hnext⟩

theorem AreRanked.includes (h : AreRanked files names rank) (hmem : name ∈ names)
    (hincludes : Includes files name other) : other ∈ names ∧ rank other < rank name := by
  obtain ⟨number, text, target, hline, htext, -, rfl⟩ := hincludes
  exact (h.named hmem hline htext).2

theorem AreRanked.isReadable (h : AreRanked files names rank) (hliteral : files.IsLiteral)
    (hname : name ∈ names) : IsReadable files name := by
  have hreaches {other : String} (hother : Reaches files name other) : other ∈ names := by
    induction hother with
    | refl => exact hname
    | tail _ hincludes ih => exact (h.includes ih hincludes).1
  have hlower {a b : String} (ha : a ∈ names) (hab : Relation.TransGen (Includes files) a b) :
      b ∈ names ∧ rank b < rank a := by
    induction hab with
    | single hincludes => exact h.includes ha hincludes
    | tail _ hincludes ih =>
        obtain ⟨hnext, hlt⟩ := h.includes ih.1 hincludes
        exact ⟨hnext, Nat.lt_trans hlt ih.2⟩
  refine ⟨fun other hother => ?_, fun other number text hother hline htext => ?_,
    fun other hother ⟨last, hincludes, hlast⟩ => ?_⟩
  · obtain ⟨file, hfile, htext, -⟩ := h other (hreaches hother)
    exact ⟨file, hfile, htext⟩
  · exact (h.named (hreaches hother) hline htext).1 rfl
  · obtain ⟨file, hfile, -⟩ := h other (hreaches hother)
    obtain ⟨i, hi, -⟩ := FileSet.exists_locate hfile
    obtain rfl : last = other := hliteral last other i (hlast.trans hi) hi
    exact Nat.lt_irrefl _ (hlower (hreaches hother) hincludes).2

-- One file that includes another one, which includes none.
theorem isReadable_of_targets (hliteral : files.IsLiteral) {outer inner : File} (target : String)
    (hother : nameBeside name target = other) (hne : other ≠ name)
    (houter : files.opened name = .ok outer ∧ IsText outer ∧ targetsOf outer = [some target])
    (hinner : files.opened other = .ok inner ∧ IsText inner ∧ targetsOf inner = []) :
    IsReadable files name := by
  have hranked : AreRanked files [name, other] fun file => if file = name then 1 else 0 := by
    refine List.forall_mem_cons.mpr ⟨?_, List.forall_mem_cons.mpr ⟨?_, by simp⟩⟩
    · obtain ⟨hfile, htext, htargets⟩ := houter
      exact ⟨outer, hfile, htext, by simp [htargets, hother, hne]⟩
    · obtain ⟨hfile, htext, htargets⟩ := hinner
      exact ⟨inner, hfile, htext, by simp [htargets]⟩
  exact hranked.isReadable hliteral List.mem_cons_self

end AreRanked

-- A line of two stored ones, then a file in the same directory that ends in a continued line, then
-- another line.
theorem read_isExpansion_iff_beside :
    let files : FileSet := .ofList [
      ("conf/main", .ofLines ["a \\", "  b", "$Include inner", "c"]),
      ("conf/inner", .ofLines ["x", "y \\"])]
    IsReadable files "conf/main" ∧ (read files "conf/main").failure = none ∧
      ∀ lines, IsExpansion files "conf/main" lines ↔
        (read files "conf/main").lines.map Line.placed = lines := by
  intro files
  have hother : nameBeside "conf/main" "inner" = "conf/inner" := by decide +kernel
  have hreadable : IsReadable files "conf/main" :=
    isReadable_of_targets FileSet.isLiteral_ofList "inner" hother (by decide)
      ⟨rfl, isText_ofLines _, by decide +kernel⟩ ⟨rfl, isText_ofLines _, by decide +kernel⟩
  exact ⟨hreadable, read_isExpansion_iff hreadable⟩

end HeadPercolation.Config
