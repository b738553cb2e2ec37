import HeadPercolation.Config.Source
import HeadPercolation.Proofs.Text.Lower
import Mathlib.Data.List.Forall2

namespace HeadPercolation

namespace Text

-- Behind the last character that is not blank there is nothing for the text between the blanks.
theorem trimRight_append_cons {c : Char} {cs blanks : List Char} (hc : isBlank c = false)
    (hblanks : ∀ b ∈ blanks, isBlank b = true) : trimRight (cs ++ c :: blanks) = cs ++ [c] := by
  have hreverse : (cs ++ c :: blanks).reverse = blanks.reverse ++ (c :: cs.reverse) := by simp
  rw [trimRight, hreverse, List.dropWhile_append_of_pos (by simpa using hblanks),
    List.dropWhile_cons_of_neg (by simp [hc])]
  simp

theorem exists_of_trimRight_eq {c : Char} {cs text : List Char}
    (h : trimRight text = cs ++ [c]) :
    isBlank c = false ∧ ∃ blanks, (∀ b ∈ blanks, isBlank b = true) ∧ text = cs ++ c :: blanks := by
  have hdrop : text.reverse.dropWhile isBlank = c :: cs.reverse := by
    have hreverse := congrArg List.reverse h
    rw [trimRight, List.reverse_reverse, List.reverse_append] at hreverse
    exact hreverse
  constructor
  · have hnot := List.head?_dropWhile_not isBlank text.reverse
    rwa [hdrop] at hnot
  · refine ⟨(text.reverse.takeWhile isBlank).reverse, fun b hb => ?_, ?_⟩
    · exact List.all_eq_true.mp List.all_takeWhile b (List.mem_reverse.mp hb)
    · have hsplit := congrArg List.reverse
        (List.takeWhile_append_dropWhile (p := isBlank) (l := text.reverse))
      rw [hdrop, List.reverse_append, List.reverse_reverse] at hsplit
      simpa using hsplit.symm

theorem trim_of_trimRight_eq {c : Char} {cs text : List Char} (h : trimRight text = cs ++ [c]) :
    ∃ body, trim text = body ++ [c] := by
  obtain ⟨hc, blanks, hblanks, rfl⟩ := exists_of_trimRight_eq h
  refine ⟨cs.dropWhile isBlank, ?_⟩
  have hleft : trimLeft (cs ++ c :: blanks) = cs.dropWhile isBlank ++ c :: blanks := by
    have hstop : (c :: blanks).dropWhile isBlank = c :: blanks :=
      List.dropWhile_cons_of_neg (by simp [hc])
    rw [trimLeft, List.dropWhile_append, hstop]
    split
    · rename_i hempty
      rw [List.isEmpty_iff.mp hempty, List.nil_append]
    · rfl
  rw [trim, hleft, trimRight_append_cons hc hblanks]

end Text

namespace Config

def IsText (file : File) : Prop :=
  ∀ stored ∈ file, ∃ text, stored = .text text

-- A stored line ends in a backslash, but for white space.
def IsOpen (stored : String) : Prop :=
  ∃ before, Text.trimRight stored.toList = before ++ ['\\']

-- Such a line continues in the next one. It is stripped, and a space takes the place of the
-- backslash.
def Adds (stored : String) (added : List Char) : Prop :=
  IsOpen stored ∧ ∃ body, Text.trim stored.toList = body ++ ['\\'] ∧ added = body ++ [' ']

-- What is added to a line goes before it, and the line loses the white space before its text.
def joined (added : List (List Char)) (last : String) : List Char :=
  if added = [] then last.toList else added.flatten ++ Text.trimLeft last.toList

-- The entries of a file, of which `number` lines stand before: lines that are continued as often
-- as may be and then end, or that the end of the file cuts off.
inductive Divides : Nat → File → List Entry → Prop where
  | nil {number : Nat} : Divides number [] []
  | unfinished {number : Nat} {parts : List String} {added : List (List Char)}
      (hadded : List.Forall₂ Adds parts added) (hne : parts ≠ []) :
      Divides number (parts.map .text) [.unfinished (number + parts.length) added.flatten]
  | line {number : Nat} {parts : List String} {added : List (List Char)} {last : String}
      {rest : File} {entries : List Entry} (hadded : List.Forall₂ Adds parts added)
      (hlast : ¬IsOpen last)
      (hrest : Divides (number + parts.length + 1) rest entries) :
      Divides number (parts.map .text ++ .text last :: rest)
        (.line (number + parts.length + 1) (joined added last) :: entries)

theorem isContinued_iff {stored : String} : isContinued stored.toList = true ↔ IsOpen stored := by
  rw [isContinued, beq_iff_eq, List.getLast?_eq_some_iff, IsOpen]

theorem adds_continuedText {stored : String} (h : IsOpen stored) :
    Adds stored (continuedText stored.toList) := by
  obtain ⟨before, hbefore⟩ := id h
  obtain ⟨body, hbody⟩ := Text.trim_of_trimRight_eq hbefore
  exact ⟨h, body, hbody, by rw [continuedText, hbody, List.dropLast_concat]⟩

theorem Adds.eq_continuedText {stored : String} {added : List Char} (h : Adds stored added) :
    added = continuedText stored.toList := by
  obtain ⟨-, body, hbody, rfl⟩ := h
  rw [continuedText, hbody, List.dropLast_concat]

theorem entriesFrom_continued {parts : List String} {added : List (List Char)}
    (h : List.Forall₂ Adds parts added) (number : Nat) (held : List Char) (rest : File) :
    entriesFrom number held (parts.map .text ++ rest) =
      entriesFrom (number + parts.length) (held ++ added.flatten) rest := by
  induction h generalizing number held with
  | nil => simp
  | @cons stored text parts added hstored _ ih =>
      have hopen := isContinued_iff.mpr hstored.1
      rw [List.map_cons, List.cons_append, entriesFrom, if_pos hopen, ih,
        ← hstored.eq_continuedText, List.length_cons, List.flatten_cons, List.append_assoc,
        Nat.add_right_comm, Nat.add_assoc]

theorem flatten_isEmpty_iff {parts : List String} {added : List (List Char)}
    (h : List.Forall₂ Adds parts added) : added.flatten.isEmpty = true ↔ added = [] := by
  cases h with
  | nil => simp
  | cons hstored _ =>
      obtain ⟨-, body, -, rfl⟩ := hstored
      simp

theorem Divides.eq_entriesFrom {number : Nat} {file : File} {entries : List Entry}
    (h : Divides number file entries) : entries = entriesFrom number [] file := by
  induction h with
  | nil => rfl
  | @unfinished number parts added hadded hne =>
      have hheld : ¬added.flatten.isEmpty = true := by
        rw [flatten_isEmpty_iff hadded]
        rintro rfl
        exact hne (List.forall₂_nil_right_iff.mp hadded)
      have hrun := entriesFrom_continued hadded number [] []
      rw [List.append_nil, List.nil_append] at hrun
      rw [hrun, entriesFrom, if_neg hheld]
  | @line number parts added last rest entries hadded hlast _ ih =>
      have hclosed : ¬isContinued last.toList = true := fun h => hlast (isContinued_iff.mp h)
      rw [entriesFrom_continued hadded, List.nil_append, entriesFrom, if_neg hclosed, ih, joined]
      simp only [flatten_isEmpty_iff hadded]

-- Some stored lines that are continued may stand before the file.
theorem exists_divides_continued {file : File} (h : IsText file) {parts : List String}
    {added : List (List Char)} (hadded : List.Forall₂ Adds parts added) (number : Nat) :
    ∃ entries, Divides number (parts.map .text ++ file) entries := by
  induction file generalizing parts added number with
  | nil =>
      rw [List.append_nil]
      by_cases hne : parts = []
      · exact ⟨[], hne ▸ .nil⟩
      · exact ⟨_, .unfinished hadded hne⟩
  | cons stored file ih =>
      obtain ⟨⟨last, rfl⟩, hfile⟩ := List.forall_mem_cons.mp h
      by_cases hopen : IsOpen last
      · have hlonger := List.rel_append hadded (.cons (adds_continuedText hopen) .nil)
        obtain ⟨entries, hentries⟩ := ih hfile hlonger number
        rw [List.map_append, List.append_assoc] at hentries
        exact ⟨entries, hentries⟩
      · obtain ⟨entries, hentries⟩ := ih hfile .nil (number + parts.length + 1)
        exact ⟨_, .line hadded hopen hentries⟩

-- A file is divided in one way, and in that way it is read.
theorem divides_iff {number : Nat} {file : File} {entries : List Entry} (h : IsText file) :
    Divides number file entries ↔ entries = entriesFrom number [] file := by
  constructor
  · exact Divides.eq_entriesFrom
  · rintro rfl
    obtain ⟨entries, hentries⟩ := exists_divides_continued h .nil number
    exact hentries.eq_entriesFrom ▸ hentries

theorem Divides.undecodable_notMem {number count : Nat} {file : File} {entries : List Entry}
    (h : Divides count file entries) : .undecodable number ∉ entries := by
  induction h with
  | nil => simp
  | unfinished => simp
  | line _ _ _ ih => simpa using ih

-- What is no UTF-8 is not passed over.
theorem isText_of_entriesFrom {number : Nat} {held : List Char} {file : File}
    (h : ∀ count, .undecodable count ∉ entriesFrom number held file) : IsText file := by
  induction file generalizing number held with
  | nil => simp [IsText]
  | cons stored file ih =>
      cases stored with
      | undecodable => exact absurd List.mem_cons_self (h number)
      | text stored =>
          refine List.forall_mem_cons.mpr ⟨⟨stored, rfl⟩, ?_⟩
          rw [entriesFrom] at h
          split at h
          · exact ih h
          · exact ih fun count hmem => h count (List.mem_cons_of_mem _ hmem)

end Config

end HeadPercolation
