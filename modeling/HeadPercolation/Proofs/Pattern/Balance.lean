import HeadPercolation.Pattern.Group
import HeadPercolation.Proofs.Results

namespace HeadPercolation.Pattern

-- Each bracket is closed by one of its own kind, and what stands between them is balanced.
inductive Balanced : List Token → Prop
  | nil : Balanced []
  | token {t : Token} {ts : List Token} (hopening : ∀ bracket, t ≠ .opening bracket)
      (hclosing : ∀ bracket, t ≠ .closing bracket) (h : Balanced ts) : Balanced (t :: ts)
  | enclosed (bracket : Bracket) {inner ts : List Token} (hinner : Balanced inner)
      (h : Balanced ts) : Balanced (.opening bracket :: inner ++ .closing bracket :: ts)

def Token.weight : Token → Int
  | opening _ => 1
  | closing _ => -1
  | _ => 0

-- How many brackets of any kind are opened and not closed.
def depth : List Token → Int
  | [] => 0
  | t :: ts => t.weight + depth ts

variable {bracket bracket' : Bracket} {t : Token} {ts ts' inner inner' rest rest' : List Token}

theorem Token.weight_eq_zero (hopening : ∀ bracket, t ≠ .opening bracket)
    (hclosing : ∀ bracket, t ≠ .closing bracket) : t.weight = 0 := by
  cases t with
  | opening bracket => exact absurd rfl (hopening bracket)
  | closing bracket => exact absurd rfl (hclosing bracket)
  | _ => rfl

theorem depth_append (ts ts' : List Token) : depth (ts ++ ts') = depth ts + depth ts' := by
  induction ts with
  | nil => simp [depth]
  | cons t ts ih => rw [List.cons_append, depth, depth, ih, Int.add_assoc]

namespace Balanced

theorem append (h : Balanced ts) (h' : Balanced ts') : Balanced (ts ++ ts') := by
  induction h with
  | nil => exact h'
  | token hopening hclosing _ ih => exact .token hopening hclosing ih
  | @enclosed bracket inner ts hinner _ _ ih =>
      rw [List.append_assoc, List.cons_append]
      exact .enclosed bracket hinner ih

theorem depth_eq_zero (h : Balanced ts) : depth ts = 0 := by
  induction h with
  | nil => rfl
  | token hopening hclosing _ ih => rw [depth, ih, Token.weight_eq_zero hopening hclosing]; rfl
  | enclosed bracket _ _ ihinner ih =>
      simp only [List.cons_append, depth, depth_append, Token.weight, ihinner, ih]
      rfl

-- No bracket is closed before it is opened.
theorem depth_nonneg {front back : List Token} (h : Balanced (front ++ back)) :
    0 ≤ depth front := by
  generalize hts : front ++ back = ts at h
  induction h generalizing front back with
  | nil =>
      rw [(List.append_eq_nil_iff.mp hts).1]
      exact Int.le_refl 0
  | token hopening hclosing _ ih =>
      cases front with
      | nil => exact Int.le_refl 0
      | cons t front =>
          rw [List.cons_append] at hts
          obtain ⟨rfl, hback⟩ := List.cons.inj hts
          rw [depth, Token.weight_eq_zero hopening hclosing, Int.zero_add]
          exact ih hback
  | enclosed bracket hinner _ ihinner ih =>
      cases front with
      | nil => exact Int.le_refl 0
      | cons t front =>
          rw [List.cons_append, List.cons_append] at hts
          obtain ⟨rfl, hback⟩ := List.cons.inj hts
          rw [depth, Token.weight]
          rcases List.append_eq_append_iff.mp hback with ⟨after, hfront, -⟩ | ⟨after, rfl, hrest⟩
          · have := ihinner hfront.symm
            omega
          · rw [depth_append, hinner.depth_eq_zero]
            cases after with
            | nil => decide
            | cons t' after =>
                rw [List.cons_append] at hrest
                obtain ⟨rfl, hlast⟩ := List.cons.inj hrest
                have := ih hlast.symm
                rw [depth, Token.weight]
                omega

theorem not_append_closing (h : Balanced inner) :
    ¬Balanced (inner ++ .closing bracket :: rest) := by
  intro hwhole
  rw [← List.singleton_append, ← List.append_assoc] at hwhole
  have hdepth := hwhole.depth_nonneg
  rw [depth_append, h.depth_eq_zero] at hdepth
  simp [depth, Token.weight] at hdepth

-- The closer of a bracket is the one before which all is balanced.
theorem append_closing_inj (h : Balanced inner) (h' : Balanced inner')
    (heq : inner ++ .closing bracket :: rest = inner' ++ .closing bracket' :: rest') :
    inner = inner' ∧ bracket = bracket' ∧ rest = rest' := by
  rcases List.append_eq_append_iff.mp heq with ⟨more, rfl, hmore⟩ | ⟨more, rfl, hmore⟩
  · cases more with
    | nil => simpa using hmore
    | cons t more =>
        obtain ⟨rfl, -⟩ := List.cons.inj hmore
        exact absurd h' h.not_append_closing
  · cases more with
    | nil => simpa [eq_comm] using hmore
    | cons t more =>
        obtain ⟨rfl, -⟩ := List.cons.inj hmore
        exact absurd h h'.not_append_closing

end Balanced

section Closers

theorem splitAtCloser_cons (ht : t ≠ .closing bracket) (depth : Nat) (ts : List Token) :
    splitAtCloser bracket depth (t :: ts) =
      (splitAtCloser bracket (if t = .opening bracket then depth + 1 else depth) ts).map
        fun (inner, rest) => (t :: inner, rest) := by
  cases depth <;> simp [splitAtCloser, ht]

theorem splitAtCloser_closing_zero (bracket : Bracket) (ts : List Token) :
    splitAtCloser bracket 0 (.closing bracket :: ts) = some ([], ts) := by
  simp [splitAtCloser]

theorem splitAtCloser_closing_succ (bracket : Bracket) (depth : Nat) (ts : List Token) :
    splitAtCloser bracket (depth + 1) (.closing bracket :: ts) =
      (splitAtCloser bracket depth ts).map
        fun (inner, rest) => (.closing bracket :: inner, rest) := by
  simp [splitAtCloser]

-- The search for a closer from before balanced tokens goes on behind them.
theorem Balanced.splitAtCloser_append (h : Balanced ts) (bracket : Bracket) (depth : Nat)
    (rest : List Token) :
    splitAtCloser bracket depth (ts ++ rest) =
      (splitAtCloser bracket depth rest).map fun (inner, rest) => (ts ++ inner, rest) := by
  induction h generalizing depth rest with
  | nil => simp
  | token hopening hclosing _ ih =>
      rw [List.cons_append, splitAtCloser_cons (hclosing bracket), if_neg (hopening bracket), ih,
        Option.map_map]
      rfl
  | @enclosed bracket' inner ts _ _ ihinner ih =>
      simp only [List.cons_append, List.append_assoc]
      rw [splitAtCloser_cons (by simp), ihinner]
      -- The brackets count only in a search for a closer of their own kind.
      by_cases hbracket : bracket' = bracket
      · subst hbracket
        rw [if_pos rfl, splitAtCloser_closing_succ, ih]
        simp only [Option.map_map, Function.comp_def]
      · have hclosing : Token.closing bracket' ≠ .closing bracket := by simpa using hbracket
        rw [if_neg (by simpa using hbracket), splitAtCloser_cons hclosing, if_neg (by simp), ih]
        simp only [Option.map_map, Function.comp_def]

theorem splitAtCloser_of_balanced (h : Balanced inner) (rest : List Token) :
    splitAtCloser bracket 0 (inner ++ .closing bracket :: rest) = some (inner, rest) := by
  rw [h.splitAtCloser_append, splitAtCloser_closing_zero]
  simp

theorem exists_of_balanced_opening (h : Balanced (.opening bracket :: ts)) :
    ∃ inner rest, ts = inner ++ .closing bracket :: rest ∧ Balanced inner ∧ Balanced rest := by
  cases h with
  | token hopening => exact absurd rfl (hopening bracket)
  | enclosed _ hinner hrest => exact ⟨_, _, rfl, hinner, hrest⟩

theorem not_balanced_closing : ¬Balanced (.closing bracket :: ts) := by
  intro h
  cases h with
  | token _ hclosing => exact hclosing bracket rfl

theorem balanced_of_token (hopening : ∀ bracket, t ≠ .opening bracket) (h : Balanced (t :: ts)) :
    Balanced ts := by
  cases h with
  | token _ _ h => exact h
  | enclosed bracket => exact absurd rfl (hopening bracket)

-- If a bracket has a partner at all, it is the closer that was found.
theorem balanced_of_splitAtCloser (hsplit : splitAtCloser bracket 0 ts = some (inner, rest))
    (h : Balanced (.opening bracket :: ts)) : Balanced inner ∧ Balanced rest := by
  obtain ⟨inner', rest', rfl, hinner, hrest⟩ := exists_of_balanced_opening h
  rw [splitAtCloser_of_balanced hinner] at hsplit
  cases hsplit
  exact ⟨hinner, hrest⟩

theorem not_balanced_of_splitAtCloser (hsplit : splitAtCloser bracket 0 ts = none) :
    ¬Balanced (.opening bracket :: ts) := by
  intro h
  obtain ⟨inner, rest, rfl, hinner, -⟩ := exists_of_balanced_opening h
  rw [splitAtCloser_of_balanced hinner] at hsplit
  cases hsplit

end Closers

end HeadPercolation.Pattern
