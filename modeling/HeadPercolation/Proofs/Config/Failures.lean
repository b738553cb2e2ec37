import HeadPercolation.Proofs.Config.Expansion

namespace HeadPercolation.Config

variable {files : FileSet} {name : String}

theorem read_of_isIncludeOf {text : List Char} {target : String} (htext : IsIncludeOf text target)
    (hne : target ≠ "") (splice : Position → String → Reading) (name : String) (number : Nat) :
    (Entry.line number text).read splice name =
      (splice ⟨name, number⟩ (nameBeside name target)).within ⟨name, number⟩ := by
  rw [Entry.read, if_pos (isInclude_iff.mpr ⟨target, htext⟩), htext.includedName?, if_neg hne]

theorem read_of_nameless {text : List Char} (htext : IsIncludeOf text "")
    (splice : Position → String → Reading) (name : String) (number : Nat) :
    (Entry.line number text).read splice name = .failed ⟨name, number⟩ .includeWithoutName := by
  rw [Entry.read, if_pos (isInclude_iff.mpr ⟨"", htext⟩), htext.includedName?, if_pos rfl]

section Entries

variable {splice : Position → String → Reading} {last : Nat} {before after entries : List Entry}

-- If reading fails, it fails at an entry, after entries that were read to their end.
theorem exists_of_readEntries_failure {failure : Failure}
    (h : (readEntries splice name last entries).failure = some failure) :
    ∃ passed entry later, entries = passed ++ entry :: later ∧
      (readEntries splice name last passed).failure = none ∧
        (entry.read splice name).failure = some failure := by
  induction entries with
  | nil => cases h
  | cons entry entries ih =>
      cases hread : (entry.read splice name).failure with
      | some failure' =>
          rw [readEntries_cons_of_failure hread] at h
          exact ⟨[], entry, entries, rfl, rfl, h⟩
      | none =>
          rw [readEntries_cons hread] at h
          obtain ⟨passed, entry', later, rfl, hpassed, hfailure⟩ := ih h
          refine ⟨entry :: passed, entry', later, rfl, ?_, hfailure⟩
          rw [readEntries_cons hread]
          exact hpassed

theorem readEntries_append (h : (readEntries splice name last before).failure = none) :
    readEntries splice name last (before ++ after) =
      { readEntries splice name last after with
        lines := (readEntries splice name last before).lines ++
          (readEntries splice name last after).lines } := by
  induction before with
  | nil => rfl
  | cons entry before ih =>
      obtain ⟨hentry, hbefore⟩ := List.forall_mem_cons.mp (readEntries_failure_eq_none_iff.mp h)
      rw [List.cons_append, readEntries_cons hentry, readEntries_cons hentry,
        ih (readEntries_failure_eq_none_iff.mpr hbefore), List.append_assoc]

theorem readEntries_append_of_failure {failure : Failure}
    (h : (readEntries splice name last before).failure = some failure) :
    readEntries splice name last (before ++ after) = readEntries splice name last before := by
  induction before with
  | nil => cases h
  | cons entry before ih =>
      rw [List.cons_append]
      cases hentry : (entry.read splice name).failure with
      | some failure' =>
          rw [readEntries_cons_of_failure hentry, readEntries_cons_of_failure hentry]
      | none =>
          rw [readEntries_cons hentry] at h
          rw [readEntries_cons hentry, readEntries_cons hentry, ih h]

end Entries

theorem AreText.divides {file : File} (h : AreText files) (hfile : files.opened name = .ok file) :
    Divides 0 file (entriesFrom 0 [] file) := by
  obtain ⟨i, -, rfl⟩ := FileSet.exists_locate hfile
  exact (divides_iff (h i)).mpr rfl

theorem splicesExpansions_readDown (depth : Nat) :
    SplicesExpansions files fun position target =>
      readDown files depth (some position) target :=
  fun position target => readDown_expands depth (some position) target

-- How the files are read that a reader includes, down to a depth.
def readIncluded (files : FileSet) (depth : Nat) (position : Position) (target : String) :
    Reading :=
  readDown files depth (some position) target

theorem readDown_entries {file : File} {entries : List Entry} (hfile : files.opened name = .ok file)
    (hentries : Divides 0 file entries) (depth : Nat) (includer : Option Position) :
    readDown files (depth + 1) includer name =
      readEntries (readIncluded files depth) name file.length entries := by
  rw [readDown_succ hfile, hentries.eq_entriesFrom]
  rfl

-- An entry that fails ends the reading of its file, unless an entry before it does.
theorem readDown_of_entry_failure {file : File} {before after : List Entry} {entry : Entry}
    {depth : Nat} {failure : Failure} (hfile : files.opened name = .ok file)
    (hentries : Divides 0 file (before ++ entry :: after))
    (hbefore : (readEntries (readIncluded files depth) name file.length before).failure = none)
    (hentry : (entry.read (readIncluded files depth) name).failure = some failure)
    (includer : Option Position) :
    (readDown files (depth + 1) includer name).failure = some failure ∧
      (readDown files (depth + 1) includer name).lines =
        (readEntries (readIncluded files depth) name file.length before).lines ++
          (entry.read (readIncluded files depth) name).lines := by
  rw [readDown_entries hfile hentries, readEntries_append hbefore,
    readEntries_cons_of_failure hentry]
  exact ⟨hentry, rfl⟩

theorem readDown_of_before_failure {file : File} {before after : List Entry} {depth : Nat}
    {failure : Failure} (hfile : files.opened name = .ok file)
    (hentries : Divides 0 file (before ++ after))
    (hbefore : (readEntries (readIncluded files depth) name file.length before).failure =
      some failure) (includer : Option Position) :
    readDown files (depth + 1) includer name =
      readEntries (readIncluded files depth) name file.length before := by
  rw [readDown_entries hfile hentries, readEntries_append_of_failure hbefore]

-- Why reading a file with at least one level of depth fails: the file is not opened, or a line
-- includes a file that it does not name, or an included file fails. The entries before are read to
-- their end.
inductive Fails (files : FileSet) (depth : Nat) (includer : Option Position) (name : String) :
    Failure → Prop where
  | unopened {error : OpenError} {failure : Failure} (hfile : files.opened name = .error error)
      (hfailure : error.failure includer name = failure) : Fails files depth includer name failure
  | nameless {file : File} {before after : List Entry} {number : Nat} {text : List Char}
      (hfile : files.opened name = .ok file)
      (hentries : Divides 0 file (before ++ .line number text :: after))
      (hbefore : (readEntries (readIncluded files depth) name file.length before).failure = none)
      (htext : IsIncludeOf text "") : Fails files depth includer name .includeWithoutName
  | included {file : File} {before after : List Entry} {number : Nat} {text : List Char}
      {target : String} {failure : Failure} (hfile : files.opened name = .ok file)
      (hentries : Divides 0 file (before ++ .line number text :: after))
      (hbefore : (readEntries (readIncluded files depth) name file.length before).failure = none)
      (htext : IsIncludeOf text target) (hne : target ≠ "")
      (hinner : (readIncluded files depth ⟨name, number⟩ (nameBeside name target)).failure =
        some failure) : Fails files depth includer name failure

theorem fails_of_readDown (hfiles : AreText files) {depth : Nat} {includer : Option Position}
    {failure : Failure} (h : (readDown files (depth + 1) includer name).failure = some failure) :
    Fails files depth includer name failure := by
  cases hfile : files.opened name with
  | error error =>
      rw [readDown, hfile] at h
      cases h
      exact .unopened hfile rfl
  | ok file =>
      have hdivides := hfiles.divides hfile
      rw [readDown_entries hfile hdivides] at h
      obtain ⟨before, entry, after, hentries, hbefore, hentry⟩ := exists_of_readEntries_failure h
      rw [hentries] at hdivides
      cases entry with
      | undecodable number =>
          exact absurd (List.mem_append_right _ List.mem_cons_self) hdivides.undecodable_notMem
      | unfinished number text => cases hentry
      | line number text =>
          rcases Entry.read_line_cases (readIncluded files depth) name number text with
            ⟨-, hread⟩ | ⟨htext, hread⟩ | ⟨target, htext, hne, hread⟩
          · rw [hread] at hentry
            cases hentry
          · rw [hread] at hentry
            cases hentry
            exact .nameless hfile hdivides hbefore htext
          · rw [hread] at hentry
            exact .included hfile hdivides hbefore htext hne hentry

end HeadPercolation.Config
