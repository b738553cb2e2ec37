import HeadPercolation.Proofs.Config.FileSets
import HeadPercolation.Proofs.Text.Words
import Mathlib.Data.Fintype.Card
import Mathlib.Logic.Relation

namespace HeadPercolation

namespace Text

theorem trim_eq_nil_iff {text : List Char} : trim text = [] ↔ trimLeft text = [] := by
  have hhead := List.head?_dropWhile_not isBlank text
  rw [← trimLeft] at hhead
  rw [trim, trimRight, List.reverse_eq_nil_iff, List.dropWhile_eq_nil_iff]
  constructor
  · intro h
    cases hleft : trimLeft text with
    | nil => rfl
    | cons c cs =>
        rw [hleft] at h hhead
        have hc : isBlank c = true := h c (by simp)
        have hnot : isBlank c = false := hhead
        rw [hc] at hnot
        cases hnot
  · intro h
    simp [h]

end Text

namespace Config

-- The line begins with `$include` in large or small letters, and after a space it names a file.
def IsIncludeOf (text : List Char) (target : String) : Prop :=
  ∃ word rest, text = word ++ ' ' :: rest ∧ word.map Char.toLower = "$include".toList ∧
    target = String.ofList (Text.trim rest)

theorem isInclude_iff {text : List Char} :
    isInclude text = true ↔ ∃ target, IsIncludeOf text target := by
  have hascii : ∀ d ∈ "$include ".toList, Text.IsAscii d ∧ d ≠ 'k' :=
    List.forall_iff_forall_mem.mp (by decide)
  have hlower := Text.isPrefix_lowerFrom_iff hascii (by decide) [] text
  rw [isInclude, Bool.and_eq_true, List.isPrefixOf_iff_prefix, List.isPrefixOf_iff_prefix,
    Text.lower, hlower]
  constructor
  · rintro ⟨-, start, rest, rfl, hstart⟩
    obtain ⟨word, space, rfl, hword, hspace⟩ := List.map_eq_append_iff.mp (show
      start.map Char.toLower = "$include".toList ++ [' '] from hstart)
    obtain ⟨c, rfl, hc⟩ := List.map_eq_singleton_iff.mp hspace
    rw [Text.eq_of_toLower_eq hc (by decide), List.append_assoc]
    exact ⟨_, word, rest, rfl, hword, rfl⟩
  · rintro ⟨target, word, rest, rfl, hword, -⟩
    refine ⟨?_, word ++ [' '], rest, by simp, by rw [List.map_append, hword]; rfl⟩
    cases word with
    | nil => cases hword
    | cons c word =>
        rw [Text.eq_of_toLower_eq (List.cons.inj hword).1 (by decide)]
        exact ⟨word ++ ' ' :: rest, rfl⟩

theorem IsIncludeOf.includedName? {text : List Char} {target : String}
    (h : IsIncludeOf text target) :
    includedName? text = if target = "" then none else some target := by
  obtain ⟨word, rest, rfl, hword, rfl⟩ := h
  have hne : word ≠ [] := by
    rintro rfl
    cases hword
  have hletters : ∀ d ∈ "$include".toList, Text.isBlank d = false :=
    List.forall_iff_forall_mem.mp (by decide)
  have hsolid (c : Char) (hc : c ∈ word) : Text.isBlank c = false := by
    rw [← Text.isBlank_toLower]
    exact hletters _ (hword ▸ List.mem_map_of_mem hc)
  rw [Config.includedName?, Text.firstWord_append hne hsolid rfl]
  simp only [List.isEmpty_iff, ← Text.trim_eq_nil_iff, String.ofList_eq_empty_iff, Text.trim]

variable {files : FileSet} {name other : String}

-- The file of that name, divided as it is, has the entry.
def HasEntry (files : FileSet) (name : String) (entry : Entry) : Prop :=
  ∃ file entries, files.opened name = .ok file ∧ Divides 0 file entries ∧ entry ∈ entries

-- A line of the one file names the other one, relative to its own directory.
def Includes (files : FileSet) (name other : String) : Prop :=
  ∃ number text target, HasEntry files name (.line number text) ∧ IsIncludeOf text target ∧
    target ≠ "" ∧ other = nameBeside name target

-- A reader of the one file comes to the other one.
def Reaches (files : FileSet) : String → String → Prop :=
  Relation.ReflTransGen (Includes files)

-- The file of that name includes itself, or others that do, be it by another of its names.
def IncludesItself (files : FileSet) (name : String) : Prop :=
  ∃ other, Relation.TransGen (Includes files) name other ∧ files.locate other = files.locate name

-- Files that are open while the file of that name is read, since they include it or each other.
-- None of them includes itself.
structure IsOpenAround (files : FileSet) (around : List (Fin files.count)) (name : String) :
    Prop where
  nodup : around.Nodup
  includes : ∀ i ∈ around, ∃ outer, files.locate outer = .ok i ∧
    Relation.TransGen (Includes files) outer name ∧ ¬IncludesItself files outer

theorem isOpenAround_nil : IsOpenAround files [] name :=
  ⟨List.nodup_nil, by simp⟩

theorem IsOpenAround.length_le {around : List (Fin files.count)}
    (h : IsOpenAround files around name) : around.length ≤ files.count :=
  h.nodup.length_le_card.trans_eq (Fintype.card_fin _)

-- A file that does not include itself is none of those that are open around it.
theorem IsOpenAround.cons {around : List (Fin files.count)} {i : Fin files.count}
    (h : IsOpenAround files around name) (hname : files.locate name = .ok i)
    (hacyclic : ¬IncludesItself files name) (hincludes : Includes files name other) :
    IsOpenAround files (i :: around) other where
  nodup := by
    refine List.nodup_cons.mpr ⟨fun hmem => ?_, h.nodup⟩
    obtain ⟨outer, houter, hreaches, hnot⟩ := h.includes i hmem
    exact hnot ⟨name, hreaches, hname.trans houter.symm⟩
  includes := by
    refine List.forall_mem_cons.mpr ⟨⟨name, hname, .single hincludes, hacyclic⟩, fun j hj => ?_⟩
    obtain ⟨outer, houter, hreaches, hnot⟩ := h.includes j hj
    exact ⟨outer, houter, hreaches.tail hincludes, hnot⟩

-- What the include lines of a file name, as far as they name a file.
def targetsOf (file : File) : List (Option String) :=
  (entriesFrom 0 [] file).filterMap fun
    | .line _ text => if isInclude text then some (includedName? text) else none
    | .unfinished _ _ | .undecodable _ => none

theorem mem_targetsOf {file : File} {number : Nat} {text : List Char} {target : String}
    (hline : .line number text ∈ entriesFrom 0 [] file) (htext : IsIncludeOf text target) :
    (if target = "" then none else some target) ∈ targetsOf file := by
  refine List.mem_filterMap.mpr ⟨_, hline, ?_⟩
  dsimp only
  rw [if_pos (isInclude_iff.mpr ⟨target, htext⟩), htext.includedName?]

end Config

end HeadPercolation
