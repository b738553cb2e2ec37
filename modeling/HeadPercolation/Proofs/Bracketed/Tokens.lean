import HeadPercolation.Tree.Bracketed
import Mathlib.Data.List.TakeWhile

namespace HeadPercolation.Bracketed

-- A run of characters that can be a word or a label.
def IsRun (cs : List Char) : Prop :=
  cs ≠ [] ∧ ∀ c ∈ cs, isDelimiter c = false

instance (cs : List Char) : Decidable (IsRun cs) :=
  decidable_of_iff (cs ≠ [] ∧ cs.all (!isDelimiter ·) = true) (by simp [IsRun])

-- A text that no run goes on into.
def BeginsDelimited (cs : List Char) : Prop :=
  ∀ c, cs.head? = some c → isDelimiter c = true

-- A text from a position on, split into its parentheses and its maximal runs.
inductive Splits : Nat → List Char → List Token → Prop
  | nil {position : Nat} : Splits position [] []
  | blank {position : Nat} {c : Char} {cs : List Char} {toks : List Token}
      (hblank : Text.isBlank c = true) (h : Splits (position + 1) cs toks) :
      Splits position (c :: cs) toks
  | opening {position : Nat} {cs : List Char} {toks : List Token}
      (h : Splits (position + 1) cs toks) : Splits position ('(' :: cs) (.opening :: toks)
  | closing {position : Nat} {cs : List Char} {toks : List Token}
      (h : Splits (position + 1) cs toks) : Splits position (')' :: cs) (.closing position :: toks)
  | word {position : Nat} {run cs : List Char} {toks : List Token}
      (hrun : IsRun run) (hcs : BeginsDelimited cs) (h : Splits (position + run.length) cs toks) :
      Splits position (run ++ cs) (.word (String.ofList run) :: toks)

theorem isDelimiter_eq_true {c : Char} :
    isDelimiter c = true ↔ c = '(' ∨ c = ')' ∨ Text.isBlank c = true := by
  simp [isDelimiter, or_assoc]

theorem beginsDelimited_cons {c : Char} (h : isDelimiter c = true) (cs : List Char) :
    BeginsDelimited (c :: cs) := by
  rintro d hd
  exact Option.some.inj hd ▸ h

theorem tokensFrom_blank {position : Nat} {begun : List Char} {c : Char} {cs : List Char}
    (h : Text.isBlank c = true) :
    tokensFrom position begun (c :: cs) =
      tokensFrom.close begun (tokensFrom (position + 1) [] cs) := by
  have hopening : c ≠ '(' := by
    rintro rfl
    cases h
  have hclosing : c ≠ ')' := by
    rintro rfl
    cases h
  simp [tokensFrom, h, hopening, hclosing]

theorem tokensFrom_skip {c : Char} (h : Text.isBlank c = true) (position : Nat) (cs : List Char) :
    tokensFrom position [] (c :: cs) = tokensFrom (position + 1) [] cs :=
  tokensFrom_blank h

theorem tokensFrom_opening (position : Nat) (cs : List Char) :
    tokensFrom position [] ('(' :: cs) = .opening :: tokensFrom (position + 1) [] cs :=
  rfl

theorem tokensFrom_closing (position : Nat) (cs : List Char) :
    tokensFrom position [] (')' :: cs) = .closing position :: tokensFrom (position + 1) [] cs :=
  rfl

-- A run that was begun goes on.
theorem tokensFrom_append {run : List Char} (hrun : ∀ c ∈ run, isDelimiter c = false)
    (position : Nat) (begun cs : List Char) :
    tokensFrom position begun (run ++ cs) =
      tokensFrom (position + run.length) (run.reverse ++ begun) cs := by
  induction run generalizing position begun with
  | nil => rfl
  | cons c run ih =>
      have hc : isDelimiter c = false := hrun c List.mem_cons_self
      simp only [isDelimiter, Bool.or_eq_false_iff] at hc
      obtain ⟨⟨hopening, hclosing⟩, hblank⟩ := hc
      have hrest := ih (fun d hd => hrun d (List.mem_cons_of_mem c hd)) (position + 1) (c :: begun)
      simp only [List.cons_append, tokensFrom, hopening, hclosing, hblank, Bool.false_eq_true,
        if_false, hrest, List.length_cons, List.reverse_cons, List.append_assoc]
      congr 1
      omega

-- A run that was begun ends before a delimiter and at the end of the text.
theorem tokensFrom_of_beginsDelimited {cs : List Char} (h : BeginsDelimited cs) (position : Nat)
    (begun : List Char) :
    tokensFrom position begun cs = tokensFrom.close begun (tokensFrom position [] cs) := by
  cases cs with
  | nil => rfl
  | cons c cs =>
      rcases isDelimiter_eq_true.mp (h c rfl) with rfl | rfl | hblank
      · rfl
      · rfl
      · rw [tokensFrom_blank hblank, tokensFrom_blank hblank]
        rfl

theorem tokensFrom_word {run cs : List Char} (hrun : IsRun run) (hcs : BeginsDelimited cs)
    (position : Nat) :
    tokensFrom position [] (run ++ cs) =
      .word (String.ofList run) :: tokensFrom (position + run.length) [] cs := by
  obtain ⟨hne, hchars⟩ := hrun
  rw [tokensFrom_append hchars, tokensFrom_of_beginsDelimited hcs, List.append_nil,
    tokensFrom.close, List.reverse_reverse]
  simp [hne]

theorem Splits.tokensFrom_eq {position : Nat} {cs : List Char} {toks : List Token}
    (h : Splits position cs toks) : tokensFrom position [] cs = toks := by
  induction h with
  | nil => rfl
  | blank hblank _ ih => rw [tokensFrom_skip hblank, ih]
  | opening _ ih => rw [tokensFrom_opening, ih]
  | closing _ ih => rw [tokensFrom_closing, ih]
  | word hrun hcs _ ih => rw [tokensFrom_word hrun hcs, ih]

-- Each step takes up a character at least, so every text can be split.
theorem exists_splits (position : Nat) (cs : List Char) : ∃ toks, Splits position cs toks := by
  induction hlength : cs.length using Nat.strongRecOn generalizing position cs with
  | ind length ih =>
      cases cs with
      | nil => exact ⟨[], .nil⟩
      | cons c cs =>
          have hcs : cs.length < length := by simp [← hlength]
          cases hc : isDelimiter c with
          | true =>
              obtain ⟨toks, h⟩ := ih cs.length hcs (position + 1) cs rfl
              rcases isDelimiter_eq_true.mp hc with rfl | rfl | hblank
              · exact ⟨_, .opening h⟩
              · exact ⟨_, .closing h⟩
              · exact ⟨_, .blank hblank h⟩
          | false =>
              let run := cs.takeWhile (!isDelimiter ·)
              let rest := cs.dropWhile (!isDelimiter ·)
              have hsplit : (c :: run) ++ rest = c :: cs := by
                simp [run, rest, List.takeWhile_append_dropWhile]
              have hrun : IsRun (c :: run) := by
                refine ⟨List.cons_ne_nil c run, fun d hd => ?_⟩
                cases List.mem_cons.mp hd with
                | inl hd => exact hd ▸ hc
                | inr hd => simpa using List.mem_takeWhile_imp hd
              have hrest : BeginsDelimited rest := by
                intro d hd
                have hstop := List.head?_dropWhile_not (fun c => !isDelimiter c) cs
                rw [hd] at hstop
                simpa using hstop
              have hlt : rest.length < length := by
                have hle : rest.length ≤ cs.length := (List.dropWhile_sublist _).length_le
                omega
              obtain ⟨toks, h⟩ := ih rest.length hlt (position + (c :: run).length) rest rfl
              refine ⟨.word (String.ofList (c :: run)) :: toks, ?_⟩
              rw [← hsplit]
              exact .word hrun hrest h

-- A text has one splitting, its tokens.
theorem splits_iff {position : Nat} {cs : List Char} {toks : List Token} :
    Splits position cs toks ↔ toks = tokensFrom position [] cs := by
  constructor
  · intro h
    exact h.tokensFrom_eq.symm
  · rintro rfl
    obtain ⟨toks, h⟩ := exists_splits position cs
    rwa [h.tokensFrom_eq]

theorem Splits.isRun {position : Nat} {cs : List Char} {toks : List Token}
    (h : Splits position cs toks) {text : String} (htext : .word text ∈ toks) :
    IsRun text.toList := by
  induction h with
  | nil => cases htext
  | blank _ _ ih => exact ih htext
  | opening _ ih => exact ih (by simpa using htext)
  | closing _ ih => exact ih (by simpa using htext)
  | word hrun _ _ ih =>
      cases List.mem_cons.mp htext with
      | inl heq =>
          rw [Token.word.inj heq, String.toList_ofList]
          exact hrun
      | inr hmem => exact ih hmem

end HeadPercolation.Bracketed
