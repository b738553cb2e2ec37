namespace HeadPercolation

-- Puts a word into a sorted list, if it is not there.
def insertSorted (word : String) : List String → List String
  | [] => [word]
  | w :: ws =>
    if word < w then word :: w :: ws
    else if word = w then w :: ws
    else w :: insertSorted word ws

theorem mem_insertSorted {word x : String} {ws : List String} :
    x ∈ insertSorted word ws ↔ x = word ∨ x ∈ ws := by
  induction ws with
  | nil => simp [insertSorted]
  | cons w ws ih =>
      unfold insertSorted
      split
      · simp
      · split
        · simp_all
        · simp only [List.mem_cons, ih]
          grind

theorem pairwise_insertSorted {word : String} {ws : List String}
    (h : ws.Pairwise (· < ·)) : (insertSorted word ws).Pairwise (· < ·) := by
  induction ws with
  | nil => simp [insertSorted]
  | cons w ws ih =>
      obtain ⟨hw, hws⟩ := List.pairwise_cons.mp h
      unfold insertSorted
      split
      · rename_i hlt
        refine List.pairwise_cons.mpr ⟨fun x hx => ?_, h⟩
        cases List.mem_cons.mp hx with
        | inl he => exact he ▸ hlt
        | inr hmem => exact String.lt_trans hlt (hw x hmem)
      · split
        · exact h
        · rename_i hle hne
          refine List.pairwise_cons.mpr ⟨fun x hx => ?_, ih hws⟩
          cases mem_insertSorted.mp hx with
          | inl he =>
              exact he ▸ String.not_le.mp fun h => hne (String.le_antisymm h (String.not_lt.mp hle))
          | inr hmem => exact hw x hmem

-- A finite set of words, in the order of their code points.
structure WordSet where
  words : List String
  sorted : words.Pairwise (· < ·)
deriving DecidableEq

namespace WordSet

def empty : WordSet :=
  ⟨[], List.Pairwise.nil⟩

def size (s : WordSet) : Nat :=
  s.words.length

def contains (s : WordSet) (word : String) : Bool :=
  s.words.contains word

def insert (s : WordSet) (word : String) : WordSet :=
  ⟨insertSorted word s.words, pairwise_insertSorted s.sorted⟩

def insertAll (s : WordSet) (words : List String) : WordSet :=
  words.foldl insert s

def ofList (words : List String) : WordSet :=
  empty.insertAll words

end WordSet

end HeadPercolation
