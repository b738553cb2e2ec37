import HeadPercolation.Text.Blank

namespace HeadPercolation.Text

def trimLeft (cs : List Char) : List Char :=
  cs.dropWhile isBlank

def trimRight (cs : List Char) : List Char :=
  (cs.reverse.dropWhile isBlank).reverse

-- A text without the white space at its two ends.
def trim (cs : List Char) : List Char :=
  trimRight (trimLeft cs)

-- The maximal runs of characters that are not blank.
def words (cs : List Char) : List (List Char) :=
  (cs.splitOnP isBlank).filter (!·.isEmpty)

-- The first word and what follows the white space behind it; `none` for a blank text.
def firstWord (cs : List Char) : Option (List Char × List Char) :=
  match trimLeft cs with
  | [] => none
  | c :: cs => some ((c :: cs).takeWhile (!isBlank ·), trimLeft ((c :: cs).dropWhile (!isBlank ·)))

-- What stands before and after the first occurrence of `mark`; `none` if there is none.
def cutAt (mark : Char) : List Char → Option (List Char × List Char)
  | [] => none
  | c :: cs =>
    if c = mark then some ([], cs)
    else (cutAt mark cs).map fun (before, after) => (c :: before, after)

-- The words of a string.
def wordsOf (s : String) : List String :=
  (words s.toList).map String.ofList

-- A string cut at every occurrence of `mark`.
def partsOf (mark : Char) (s : String) : List String :=
  (s.toList.splitOn mark).map String.ofList

def startsWith (start s : String) : Bool :=
  start.toList.isPrefixOf s.toList

-- Does the part stand anywhere in the text?
def occursIn (part : List Char) : List Char → Bool
  | [] => part.isEmpty
  | c :: cs => part.isPrefixOf (c :: cs) || occursIn part cs

def contains (part s : String) : Bool :=
  occursIn part.toList s.toList

-- The cut loses one mark and nothing else.
theorem cutAt_eq_some {mark : Char} {cs before after : List Char}
    (h : cutAt mark cs = some (before, after)) : cs = before ++ mark :: after := by
  induction cs generalizing before with
  | nil => simp [cutAt] at h
  | cons c cs ih =>
      unfold cutAt at h
      split at h
      · simp_all
      · obtain ⟨⟨front, back⟩, hcut, heq⟩ := Option.map_eq_some_iff.mp h
        simp only [Prod.mk.injEq] at heq
        obtain ⟨rfl, rfl⟩ := heq
        simp [ih hcut]

theorem cutAt_eq_none_iff {mark : Char} {cs : List Char} : cutAt mark cs = none ↔ mark ∉ cs := by
  induction cs with
  | nil => simp [cutAt]
  | cons c cs ih =>
      unfold cutAt
      split
      · simp_all
      · rw [Option.map_eq_none_iff, ih]
        simp_all [eq_comm]

-- The first mark is the one that cuts.
theorem cutAt_append {mark : Char} {before : List Char} (h : mark ∉ before) (after : List Char) :
    cutAt mark (before ++ mark :: after) = some (before, after) := by
  induction before with
  | nil => simp [cutAt]
  | cons c before ih =>
      rw [List.mem_cons, not_or] at h
      rw [List.cons_append, cutAt, if_neg (Ne.symm h.1), ih h.2]
      rfl

theorem cutAt_eq_some_iff {mark : Char} {cs before after : List Char} :
    cutAt mark cs = some (before, after) ↔ cs = before ++ mark :: after ∧ mark ∉ before := by
  constructor
  · intro h
    have hcs := cutAt_eq_some h
    refine ⟨hcs, fun hmem => ?_⟩
    -- The first mark would have to stand before itself.
    obtain ⟨front, back, hsplit, hfront⟩ := List.eq_append_cons_of_mem hmem
    rw [hcs, hsplit, List.append_assoc, List.cons_append, cutAt_append hfront] at h
    simp only [Option.some.injEq, Prod.mk.injEq, List.self_eq_append_right] at h
    exact List.cons_ne_nil mark back h.1
  · rintro ⟨rfl, hbefore⟩
    exact cutAt_append hbefore after

end HeadPercolation.Text
