import HeadPercolation.Text.Case
import HeadPercolation.Text.Split

namespace HeadPercolation.Text

def IsAscii (c : Char) : Prop :=
  c.toNat < 0x80

instance (c : Char) : Decidable (IsAscii c) :=
  inferInstanceAs (Decidable (_ < _))

-- A capital letter of ASCII is moved by a fixed distance, any other character stays.
theorem toLower_cases (c : Char) :
    (0x41 ≤ c.toNat ∧ c.toNat ≤ 0x5A ∧ c.toLower.toNat = c.toNat + 0x20) ∨ c.toLower = c := by
  unfold Char.toLower
  split
  · rename_i h
    obtain ⟨hlow, hhigh⟩ : 0x41 ≤ c.toNat ∧ c.toNat ≤ 0x5A := by
      simpa [UInt32.le_iff_toNat_le, Char.toNat_val] using h
    refine Or.inl ⟨hlow, hhigh, ?_⟩
    have hsize : ('a'.val - 'A'.val).toNat = 0x20 := rfl
    rw [← Char.toNat_val, UInt32.toNat_add, Char.toNat_val, hsize]
    omega
  · exact Or.inr rfl

theorem isAscii_toLower_iff {c : Char} : IsAscii c.toLower ↔ IsAscii c := by
  unfold IsAscii
  rcases toLower_cases c with ⟨hlow, hhigh, hmoved⟩ | hsame
  · omega
  · rw [hsame]

theorem isBlank_toLower (c : Char) : isBlank c.toLower = isBlank c := by
  rcases toLower_cases c with ⟨hlow, hhigh, hmoved⟩ | hsame
  · rw [Bool.eq_iff_iff]
    simp only [isBlank, hmoved, Bool.or_eq_true, Bool.and_eq_true, decide_eq_true_eq, beq_iff_eq]
    omega
  · rw [hsame]

-- A character that is no small letter is the lower case of no other one.
theorem eq_of_toLower_eq {c d : Char} (h : c.toLower = d) (hd : d.toNat < 0x61) : c = d := by
  rcases toLower_cases c with ⟨hlow, hhigh, hmoved⟩ | hsame
  · rw [h] at hmoved
    omega
  · exact hsame.symm.trans h

theorem toNat_ofNat_of_isValidChar {n : Nat} (h : n.isValidChar) : (Char.ofNat n).toNat = n := by
  rw [Char.ofNat, dif_pos h]
  rfl

theorem lowerRuns_image_bounds : ∀ run ∈ lowerRuns,
    (0x80 ≤ run.first + run.shift ∧ (run.last + run.shift < 0xD800 ∨
      0xE000 ≤ run.first + run.shift ∧ run.last + run.shift < 0x110000)) ∨
    (run.first = 0x212A ∧ run.last = 0x212A ∧ run.shift = -8383) := by
  decide +kernel

theorem not_isAscii_or_eq_of_image {code image : Nat}
    (h : lowerRuns.findSome? (·.image? code) = some image) :
    ¬IsAscii (Char.ofNat image) ∨ Char.ofNat image = 'k' := by
  obtain ⟨run, hrun, himage⟩ := List.exists_of_findSome?_eq_some h
  unfold Run.image? at himage
  split at himage
  · rename_i hcovers
    simp only [Bool.and_eq_true, decide_eq_true_eq] at hcovers
    obtain ⟨⟨hfirst, hlast⟩, -⟩ := hcovers
    have heq : image = (code + run.shift).toNat := (Option.some.inj himage).symm
    rcases lowerRuns_image_bounds run hrun with ⟨hlow, hhigh⟩ | ⟨hf, hl, hs⟩
    · left
      have hvalid : image.isValidChar := by
        unfold Nat.isValidChar
        omega
      rw [IsAscii, toNat_ofNat_of_isValidChar hvalid]
      omega
    · right
      have hk : image = 0x6B := by omega
      rw [hk]
  · cases himage

-- A character beyond ASCII has no ASCII character as its lower case. The exceptions are the Kelvin
-- sign and the capital I with a dot, which keeps the dot behind its i.
theorem lowerChar_of_not_isAscii {c : Char} (h : ¬IsAscii c) :
    lowerChar c = ['i', Char.ofNat 0x307] ∨
      ∃ d, lowerChar c = [d] ∧ (¬IsAscii d ∨ d = 'k') := by
  rw [lowerChar, if_neg (show ¬c.toNat < 0x80 from h)]
  split
  · exact Or.inl rfl
  · refine Or.inr ⟨_, rfl, ?_⟩
    cases himage : lowerRuns.findSome? (·.image? c.toNat) with
    | none => exact Or.inl h
    | some image => exact not_isAscii_or_eq_of_image himage

theorem lowerChar_of_isAscii {c : Char} (h : IsAscii c) : lowerChar c = [c.toLower] := by
  rw [lowerChar, if_pos (show c.toNat < 0x80 from h)]

theorem lowerFrom_cons_of_isAscii {c : Char} (h : IsAscii c) (before cs : List Char) :
    lowerFrom before (c :: cs) = c.toLower :: lowerFrom (c :: before) cs := by
  have hsigma : ¬(c.toNat == 0x3A3) = true := by
    unfold IsAscii at h
    simp only [beq_iff_eq]
    omega
  rw [lowerFrom, if_neg hsigma, lowerChar_of_isAscii h]
  rfl

theorem lowerFrom_cons_of_not_isAscii {c : Char} (h : ¬IsAscii c) (before cs : List Char) :
    (∃ rest, lowerFrom before (c :: cs) = 'i' :: Char.ofNat 0x307 :: rest) ∨
      ∃ d rest, lowerFrom before (c :: cs) = d :: rest ∧ (¬IsAscii d ∨ d = 'k') := by
  unfold lowerFrom
  split
  · right
    refine ⟨lowerSigma before cs, _, rfl, Or.inl ?_⟩
    unfold lowerSigma
    split <;> decide
  · rcases lowerChar_of_not_isAscii h with hdotted | ⟨d, hd, hascii⟩
    · rw [hdotted]
      exact Or.inl ⟨_, rfl⟩
    · rw [hd]
      exact Or.inr ⟨d, _, rfl, hascii⟩

section Words

variable {word : List Char} {c d : Char} {cs : List Char}

theorem not_isPrefix_lowerFrom_of_not_isAscii
    (hascii : ∀ e ∈ d :: word, IsAscii e ∧ e ≠ 'k') (hlast : (d :: word).getLast? ≠ some 'i')
    (hc : ¬IsAscii c) (before : List Char) : ¬d :: word <+: lowerFrom before (c :: cs) := by
  intro h
  have hd := hascii d List.mem_cons_self
  rcases lowerFrom_cons_of_not_isAscii hc before cs with ⟨rest, hrest⟩ | ⟨e, rest, hrest, he⟩
  · rw [hrest, List.cons_prefix_cons] at h
    cases word with
    | nil => exact hlast (congrArg some h.1)
    | cons e word =>
        have hdot := (List.cons_prefix_cons.mp h.2).1
        have he := (hascii e (by simp)).1
        rw [hdot] at he
        exact absurd he (by decide)
  · rw [hrest, List.cons_prefix_cons] at h
    rw [← h.1] at he
    rcases he with he | he
    · exact he hd.1
    · exact hd.2 he

theorem begins_cons_iff :
    (∃ start rest, c :: cs = start ++ rest ∧ start.map Char.toLower = d :: word) ↔
      c.toLower = d ∧ ∃ start rest, cs = start ++ rest ∧ start.map Char.toLower = word := by
  constructor
  · rintro ⟨start, rest, htext, hword⟩
    obtain ⟨e, start, rfl, hd, hmap⟩ := List.map_eq_cons_iff.mp hword
    obtain ⟨rfl, rfl⟩ := List.cons.inj htext
    exact ⟨hd, start, rest, rfl, hmap⟩
  · rintro ⟨rfl, start, rest, rfl, rfl⟩
    exact ⟨c :: start, rest, rfl, rfl⟩

-- Where the lower case of a text begins with a word in ASCII, the text begins with the word but
-- for the size of letters.
theorem isPrefix_lowerFrom_iff (hascii : ∀ d ∈ word, IsAscii d ∧ d ≠ 'k')
    (hlast : word.getLast? ≠ some 'i') (before text : List Char) :
    word <+: lowerFrom before text ↔
      ∃ start rest, text = start ++ rest ∧ start.map Char.toLower = word := by
  induction word generalizing before text with
  | nil => exact ⟨fun _ => ⟨[], text, rfl, rfl⟩, fun _ => List.nil_prefix⟩
  | cons d word ih =>
      cases text with
      | nil =>
          constructor
          · intro h
            cases List.prefix_nil.mp h
          · rintro ⟨start, rest, htext, hword⟩
            rw [(List.append_eq_nil_iff.mp htext.symm).1] at hword
            cases hword
      | cons c cs =>
          rw [begins_cons_iff]
          by_cases hc : IsAscii c
          · have htail : word.getLast? ≠ some 'i' := by
              cases word with
              | nil => simp
              | cons e word => exact hlast
            have hrest := ih (fun e he => hascii e (List.mem_cons_of_mem d he)) htail
            rw [lowerFrom_cons_of_isAscii hc, List.cons_prefix_cons, hrest, eq_comm]
          · -- The lower case does not begin with the word, nor is `c` a letter of it.
            refine iff_of_false (not_isPrefix_lowerFrom_of_not_isAscii hascii hlast hc before) ?_
            rintro ⟨rfl, -⟩
            exact hc (isAscii_toLower_iff.mp (hascii _ List.mem_cons_self).1)

end Words

end HeadPercolation.Text
