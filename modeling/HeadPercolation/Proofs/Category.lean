import HeadPercolation.Category
import Mathlib.Data.List.TakeWhile

namespace HeadPercolation

-- A tag without annotations.
def IsPlainTag (tag : String) : Prop :=
  tag ≠ "" ∧ ∀ c ∈ tag.toList, isAnnotationMark c = false

instance (tag : String) : Decidable (IsPlainTag tag) :=
  decidable_of_iff (tag ≠ "" ∧ tag.toList.all (!isAnnotationMark ·) = true) (by simp [IsPlainTag])

-- A text without annotation marks.
def IsUnmarked (cs : List Char) : Prop :=
  ∀ c ∈ cs, isAnnotationMark c = false

instance (cs : List Char) : Decidable (IsUnmarked cs) :=
  decidable_of_iff (cs.all (!isAnnotationMark ·) = true) (by simp [IsUnmarked])

-- A text up to its first annotation mark.
def beforeMarks (text : String) : String :=
  String.ofList (text.toList.takeWhile (!isAnnotationMark ·))

-- The label opens with the mark, and holds no other to close it or to end the category.
def IsUnclosed (mark : Char) (label : String) : Prop :=
  label.toList.head? = some mark ∧ IsUnmarked label.toList.tail

instance (mark : Char) (label : String) : Decidable (IsUnclosed mark label) :=
  inferInstanceAs (Decidable (label.toList.head? = some mark ∧ IsUnmarked label.toList.tail))

variable {tag label inner : String} {mark : Char} {cs : List Char}

section Scan

theorem isUnmarked_cons_iff {c : Char} :
    IsUnmarked (c :: cs) ↔ isAnnotationMark c = false ∧ IsUnmarked cs :=
  List.forall_mem_cons

theorem categoryTail_none (cs : List Char) :
    categoryTail none cs = cs.takeWhile (!isAnnotationMark ·) := by
  induction cs with
  | nil => rfl
  | cons c cs ih =>
      rw [categoryTail]
      cases hc : isAnnotationMark c with
      | true => simp [hc]
      | false => simp [hc, ih]

theorem categoryOf_cons {c : Char} (cs : List Char) (hc : isAnnotationMark c = false) :
    categoryOf (c :: cs) = (c :: cs).takeWhile (!isAnnotationMark ·) := by
  simp [categoryOf, hc, categoryTail_none]

-- A pending mark that does not come again is as good as none.
theorem categoryTail_of_notMem (h : mark ∉ cs) :
    categoryTail (some mark) cs = categoryTail none cs := by
  induction cs with
  | nil => rfl
  | cons c cs ih =>
      obtain ⟨hc, hcs⟩ := not_or.mp (List.mem_cons.not.mp h)
      have hcloses : some mark ≠ some c := fun heq => hc (Option.some.inj heq)
      rw [categoryTail, categoryTail, ih hcs, if_neg hcloses, if_neg (Option.some_ne_none c).symm]

-- A mark behind a text only counts where it closes the pending one, with no mark before it. At any
-- other place the category has ended before it or ends there.
theorem categoryTail_append_mark (hmark : isAnnotationMark mark = true) (pending : Option Char)
    (cs text : List Char) :
    categoryTail pending (cs ++ mark :: text) =
      if pending = some mark ∧ IsUnmarked cs then
        cs ++ mark :: text.takeWhile (!isAnnotationMark ·)
      else categoryTail pending cs := by
  induction cs generalizing pending with
  | nil =>
      have hnil : IsUnmarked [] := List.forall_mem_nil _
      simp [categoryTail, hmark, hnil, categoryTail_none]
  | cons c cs ih =>
      rw [List.cons_append, categoryTail, categoryTail, ih, ih]
      cases hc : isAnnotationMark c with
      | false =>
          simp only [isUnmarked_cons_iff, hc, true_and, Bool.not_false, if_true]
          split <;> rfl
      | true => simp [isUnmarked_cons_iff, hc]

theorem categoryTail_categoryTail (pending : Option Char) (cs : List Char) :
    categoryTail pending (categoryTail pending cs) = categoryTail pending cs := by
  induction cs generalizing pending with
  | nil => rfl
  | cons c cs ih =>
      rw [categoryTail]
      split
      · rename_i hplain
        rw [categoryTail, if_pos hplain, ih]
      · rename_i hmarked
        split
        · rename_i hcloses
          rw [categoryTail, if_neg hmarked, if_pos hcloses, ih]
        · rfl

end Scan

section Labels

theorem toList_basicCategory (label : String) :
    (basicCategory label).toList = categoryOf label.toList := by
  rw [basicCategory, String.toList_ofList]

-- A label starts with its category.
theorem basicCategory_isPrefix (label : String) :
    (basicCategory label).toList <+: label.toList := by
  rw [toList_basicCategory]
  exact categoryOf_isPrefix label.toList

theorem startsWith_basicCategory (label : String) :
    Text.startsWith (basicCategory label) label = true := by
  rw [Text.startsWith, List.isPrefixOf_iff_prefix]
  exact basicCategory_isPrefix label

theorem toList_beforeMarks (text : String) :
    (beforeMarks text).toList = text.toList.takeWhile (!isAnnotationMark ·) := by
  rw [beforeMarks, String.toList_ofList]

theorem length_beforeMarks_le (text : String) : (beforeMarks text).length ≤ text.length := by
  rw [← String.length_toList, ← String.length_toList, toList_beforeMarks]
  exact (List.takeWhile_prefix _).length_le

theorem beforeMarks_eq_self_iff {text : String} :
    beforeMarks text = text ↔ IsUnmarked text.toList := by
  rw [← String.toList_inj, toList_beforeMarks, List.takeWhile_eq_self_iff]
  simp [IsUnmarked]

theorem IsPlainTag.basicCategory_eq (h : IsPlainTag tag) : basicCategory tag = tag := by
  rw [← String.toList_inj, toList_basicCategory]
  cases htag : tag.toList with
  | nil => rfl
  | cons c cs =>
      have hmarks : ∀ d ∈ c :: cs, isAnnotationMark d = false := htag ▸ h.2
      rw [categoryOf_cons cs (hmarks c List.mem_cons_self), List.takeWhile_eq_self_iff]
      intro d hd
      rw [hmarks d hd]
      rfl

theorem basicCategory_ne_empty (h : label ≠ "") : basicCategory label ≠ "" := by
  rw [ne_eq, ← String.toList_eq_nil_iff, toList_basicCategory]
  cases hlabel : label.toList with
  | nil => exact absurd (String.toList_eq_nil_iff.mp hlabel) h
  | cons c cs => exact List.cons_ne_nil _ _

theorem basicCategory_basicCategory (label : String) :
    basicCategory (basicCategory label) = basicCategory label := by
  rw [← String.toList_inj, toList_basicCategory, toList_basicCategory]
  cases label.toList with
  | nil => rfl
  | cons c cs => rw [categoryOf, categoryOf, categoryTail_categoryTail]

theorem basicCategory_append_mark (hmark : isAnnotationMark mark = true) (h : label ≠ "")
    (text : String) :
    basicCategory (label ++ String.singleton mark ++ text) =
      if IsUnclosed mark label then label ++ String.singleton mark ++ beforeMarks text
      else basicCategory label := by
  cases hlabel : label.toList with
  | nil => exact absurd (String.toList_eq_nil_iff.mp hlabel) h
  | cons c cs =>
      have hpending : (if isAnnotationMark c then some c else none) = some mark ↔ c = mark := by
        constructor
        · intro heq
          split at heq
          · exact Option.some.inj heq
          · cases heq
        · rintro rfl
          rw [if_pos hmark]
      have hunclosed : IsUnclosed mark label ↔ c = mark ∧ IsUnmarked cs := by
        rw [IsUnclosed, hlabel, List.head?_cons, List.tail_cons, Option.some.injEq]
      rw [← String.toList_inj, apply_ite String.toList, toList_basicCategory, toList_basicCategory]
      simp only [String.toList_append, String.toList_singleton, toList_beforeMarks, hlabel,
        List.cons_append, List.append_assoc, List.nil_append, categoryOf,
        categoryTail_append_mark hmark, hpending, hunclosed]
      split <;> rfl

-- A label starts with its category, which is its own category. A further annotation changes it
-- just if it closes the mark that the label opens with.
theorem basicCategory_isStable (label : String) :
    (basicCategory label).toList <+: label.toList ∧ (label ≠ "" → basicCategory label ≠ "") ∧
      basicCategory (basicCategory label) = basicCategory label ∧
      ∀ mark text, label ≠ "" → isAnnotationMark mark = true →
        (basicCategory (label ++ String.singleton mark ++ text) = basicCategory label ↔
          ¬IsUnclosed mark label) := by
  have hstart := basicCategory_isPrefix label
  refine ⟨hstart, basicCategory_ne_empty, basicCategory_basicCategory label, ?_⟩
  intro mark text hne hmark
  rw [basicCategory_append_mark hmark hne]
  constructor
  · -- the closed label is longer than the open one
    intro heq hunclosed
    rw [if_pos hunclosed] at heq
    have hlength := hstart.length_le
    rw [← heq] at hlength
    simp only [String.toList_append, String.toList_singleton, List.length_append,
      List.length_singleton] at hlength
    omega
  · intro hclosed
    rw [if_neg hclosed]

-- A hyphen closes the trace, a gap index leaves it as it is.
theorem basicCategory_isStable_trace :
    "-NONE" ≠ "" ∧ isAnnotationMark '=' = true ∧ ¬IsUnclosed '=' "-NONE" ∧
      basicCategory ("-NONE" ++ String.singleton '=' ++ "2-") = basicCategory "-NONE" ∧
      isAnnotationMark '-' = true ∧ IsUnclosed '-' "-NONE" ∧
      basicCategory ("-NONE" ++ String.singleton '-' ++ "=2") ≠ basicCategory "-NONE" := by
  have hne : "-NONE" ≠ "" := by decide
  have hequals : ¬IsUnclosed '=' "-NONE" := by decide +kernel
  have hhyphen : IsUnclosed '-' "-NONE" := by decide +kernel
  obtain ⟨-, -, -, hmark⟩ := basicCategory_isStable "-NONE"
  refine ⟨hne, rfl, hequals, (hmark '=' "2-" hne rfl).mpr hequals, rfl, hhyphen, fun hsame => ?_⟩
  exact (hmark '-' "=2" hne rfl).mp hsame hhyphen

theorem isUnclosed_singleton_append_iff :
    IsUnclosed mark (String.singleton mark ++ inner) ↔ IsUnmarked inner.toList := by
  simp [IsUnclosed]

-- The category of an opened label ends at the next mark.
theorem basicCategory_opened (hmark : isAnnotationMark mark = true)
    (hinner : mark ∉ inner.toList) :
    basicCategory (String.singleton mark ++ inner) =
      String.singleton mark ++ beforeMarks inner := by
  rw [← String.toList_inj, toList_basicCategory, String.toList_append, String.toList_append,
    String.toList_singleton, List.singleton_append, List.singleton_append, categoryOf, if_pos hmark,
    categoryTail_of_notMem hinner, categoryTail_none, toList_beforeMarks]

-- Behind the mark that opens it, a category ends at the next mark of another kind. If there is none
-- before the closing mark, the category goes on behind that, up to the next mark of any kind.
theorem basicCategory_enclosed (hmark : isAnnotationMark mark = true)
    (hinner : mark ∉ inner.toList) (rest : String) :
    let closed := String.singleton mark ++ inner ++ String.singleton mark
    (basicCategory (closed ++ rest) = closed ↔
      IsUnmarked inner.toList ∧ beforeMarks rest = "") ∧
      basicCategory (closed ++ rest) =
        if IsUnmarked inner.toList then closed ++ beforeMarks rest
        else String.singleton mark ++ beforeMarks inner := by
  intro closed
  have hne : String.singleton mark ++ inner ≠ "" := by
    simp [← String.toList_eq_nil_iff]
  have hvalue := basicCategory_append_mark hmark hne rest
  simp only [isUnclosed_singleton_append_iff, basicCategory_opened hmark hinner] at hvalue
  refine ⟨?_, hvalue⟩
  rw [hvalue]
  split
  · rename_i hunmarked
    simp [hunmarked, closed]
  · rename_i hmarked
    simp only [hmarked, false_and, iff_false]
    -- the closing mark stands behind all of the inner part
    intro heq
    have hshort := length_beforeMarks_le inner
    have hlength := congrArg String.length heq
    simp only [closed, String.length_append, String.length_singleton] at hlength
    omega

theorem basicCategory_enclosed_trace :
    isAnnotationMark '-' = true ∧ '-' ∉ "NONE".toList ∧ IsUnmarked "NONE".toList ∧
      beforeMarks "=2" = "" ∧ basicCategory ("-NONE-" ++ "=2") = "-NONE-" := by
  have hmark : isAnnotationMark '-' = true := rfl
  have hinner : '-' ∉ "NONE".toList := by decide
  have hunmarked : IsUnmarked "NONE".toList := by decide
  have hrest : beforeMarks "=2" = "" := by decide +kernel
  obtain ⟨hclosed, -⟩ := basicCategory_enclosed hmark hinner "=2"
  exact ⟨hmark, hinner, hunmarked, hrest, hclosed.mpr ⟨hunmarked, hrest⟩⟩

-- A category need not end at its closing mark. It may go on behind it, and another mark may end it
-- before.
theorem basicCategory_ne_closed :
    isAnnotationMark '-' = true ∧ '-' ∉ "LRB".toList ∧ '-' ∉ "A=B".toList ∧
      basicCategory ("-LRB-" ++ "X") ≠ "-LRB-" ∧ basicCategory ("-A=B-" ++ "") ≠ "-A=B-" := by
  decide +kernel

end Labels

end HeadPercolation
