import HeadPercolation.Proofs.Config.Entries
import HeadPercolation.Proofs.Results
import Mathlib.Data.List.TakeWhile

namespace HeadPercolation.Config

@[simp]
theorem isText_ofLines (lines : List String) : IsText (File.ofLines lines) := by
  intro stored hstored
  obtain ⟨line, -, rfl⟩ := List.mem_map.mp hstored
  exact ⟨line ++ "\n", rfl⟩

-- Each file is UTF-8.
def AreText (files : FileSet) : Prop :=
  ∀ i, IsText (files.contents i)

section Names

variable {before key : List Char} {c : Char}

theorem directoryOf_of_notMem (h : '/' ∉ key) : directoryOf key = [] := by
  have hdrop : key.reverse.dropWhile (· != '/') = [] := by
    rw [List.dropWhile_eq_nil_iff]
    intro d hd
    rw [bne_iff_ne]
    rintro rfl
    exact h (List.mem_reverse.mp hd)
  rw [directoryOf, hdrop]
  rfl

theorem directoryOf_append (hkey : '/' ∉ key) (hc : c ≠ '/') :
    directoryOf (before ++ c :: '/' :: key) = before ++ [c] := by
  have hreverse : (before ++ c :: '/' :: key).reverse =
      key.reverse ++ '/' :: c :: before.reverse := by simp
  have hslash : (before ++ c :: '/' :: key).reverse.dropWhile (· != '/') =
      '/' :: c :: before.reverse := by
    rw [hreverse, List.dropWhile_append_of_pos]
    · simp
    · intro d hd
      rw [bne_iff_ne]
      rintro rfl
      exact hkey (List.mem_reverse.mp hd)
  have hnot : ('/' :: c :: before.reverse).reverse.all (· == '/') = false := by
    simp [hc]
  rw [directoryOf, hslash, hnot, List.reverse_reverse]
  simp [hc]

end Names

namespace FileSet

variable {files : FileSet} {name : String}

theorem opened_of_locate {i : Fin files.count} (h : files.locate name = .ok i) :
    files.opened name = .ok (files.contents i) := by
  rw [opened, h]
  rfl

theorem exists_locate {file : File} (h : files.opened name = .ok file) :
    ∃ i, files.locate name = .ok i ∧ files.contents i = file :=
  map_eq_ok.mp h

-- Whatever name of a file is used, the same names that are relative to it lead to the same files.
def IsCoherent (files : FileSet) : Prop :=
  ∀ name other i, files.locate name = .ok i → files.locate other = .ok i →
    ∀ target, files.locate (nameBeside name target) = files.locate (nameBeside other target)

-- No two names lead to one file.
def IsLiteral (files : FileSet) : Prop :=
  ∀ name other i, files.locate name = .ok i → files.locate other = .ok i → name = other

section Lists

variable {named : List (String × File)}

theorem areText_ofList (h : ∀ entry ∈ named, IsText entry.2) : AreText (.ofList named) :=
  fun i => h (named.get i) (List.get_mem named i)

theorem name_of_locate_ofList {i : Fin named.length} (h : (ofList named).locate name = .ok i) :
    (named.get i).1 = name := by
  unfold ofList at h
  dsimp only at h
  split at h
  · cases h
  · split at h
    · rename_i j hfound
      cases h
      simpa using (List.findFinIdx?_eq_some_iff.mp hfound).1
    · cases h

theorem isLiteral_ofList : (ofList named).IsLiteral := fun _ _ _ hname hother =>
  (name_of_locate_ofList hname).symm.trans (name_of_locate_ofList hother)

end Lists

end FileSet

-- A name without `./` at its beginning, however often it is there.
def withoutDots : List Char → List Char
  | '.' :: '/' :: rest => withoutDots rest
  | name => name

-- The files of the directory in which a program runs, whose names it can begin with `./`.
def FileSet.ofDirectory (named : List (String × File)) : FileSet :=
  { ofList named with
    locate := fun name => (ofList named).locate (String.ofList (withoutDots name.toList)) }

theorem exists_of_withoutDots (name : List Char) :
    ∃ dots, name = dots ++ withoutDots name ∧
      (∀ rest, withoutDots (dots ++ rest) = withoutDots rest) ∧
        (dots = [] ∨ ∃ before, dots = before ++ ['.', '/']) := by
  induction name using withoutDots.induct with
  | case1 rest ih =>
      obtain ⟨dots, hrest, hdots, hends⟩ := ih
      refine ⟨'.' :: '/' :: dots, ?_, fun more => ?_, Or.inr ?_⟩
      · rw [withoutDots, List.cons_append, List.cons_append, ← hrest]
      · rw [List.cons_append, List.cons_append, withoutDots, hdots]
      · rcases hends with rfl | ⟨before, rfl⟩
        · exact ⟨[], rfl⟩
        · exact ⟨'.' :: '/' :: before, rfl⟩
  | case2 name hnot =>
      refine ⟨[], ?_, fun _ => rfl, Or.inl rfl⟩
      rw [List.nil_append, withoutDots]
      exact hnot

-- What is named in a file of the directory is a file of the same directory.
theorem withoutDots_joinName {name : List Char} (h : '/' ∉ withoutDots name) (target : List Char) :
    withoutDots (joinName (directoryOf name) target) = withoutDots target := by
  obtain ⟨dots, hname, hdots, rfl | ⟨before, rfl⟩⟩ := exists_of_withoutDots name
  · rw [hname, List.nil_append, directoryOf_of_notMem h, joinName, if_pos (by simp)]
  · have hdirectory : directoryOf name = before ++ ['.'] := by
      rw [hname, List.append_assoc]
      exact directoryOf_append h (by decide)
    rw [hdirectory, joinName]
    split
    · rfl
    · rw [if_neg (by simp), List.append_assoc]
      simpa using hdots target

theorem FileSet.locate_ofDirectory (named : List (String × File)) (name : String) :
    (ofDirectory named).locate name =
      (ofList named).locate (String.ofList (withoutDots name.toList)) := rfl

theorem FileSet.areText_ofDirectory {named : List (String × File)}
    (h : ∀ entry ∈ named, IsText entry.2) : AreText (.ofDirectory named) :=
  fun i => areText_ofList h i

theorem FileSet.isCoherent_ofDirectory {named : List (String × File)}
    (h : ∀ entry ∈ named, '/' ∉ entry.1.toList) : (ofDirectory named).IsCoherent := by
  intro name other i hname hother target
  rw [locate_ofDirectory] at hname hother
  have hplain {key : List Char} (hkey : (ofList named).locate (String.ofList key) = .ok i) :
      '/' ∉ key := by
    rw [← String.toList_ofList (l := key), ← name_of_locate_ofList hkey]
    exact h _ (List.get_mem named i)
  simp only [locate_ofDirectory, nameBeside, String.toList_ofList]
  rw [withoutDots_joinName (hplain hname), withoutDots_joinName (hplain hother)]

end HeadPercolation.Config
