import HeadPercolation.Proofs.Pattern.Nesting
import Mathlib.Data.List.Infix

namespace HeadPercolation.Pattern

-- What round brackets may enclose: alternatives with bars between them, none of which is empty. A
-- bar with balanced tokens before it belongs to these brackets and not to some inside.
structure HasAlternatives (inner : List Token) : Prop where
  ne_nil : inner ≠ []
  head : inner.head? ≠ some .bar
  last : inner.getLast? ≠ some .bar
  apart : ∀ before after, inner = before ++ .bar :: .bar :: after → ¬Balanced before

-- All round brackets enclose alternatives.
def HasFullChoices (ts : List Token) : Prop :=
  ∀ before inner after, ts = before ++ .opening .round :: inner ++ .closing .round :: after →
    Balanced inner → HasAlternatives inner

variable {bracket : Bracket} {content gs gs' : List Group} {g : Group} {t : Token}
  {ts ts' inner rest : List Token} {e : FormError}

section Bars

theorem head?_splitAtBars_eq_nil_iff :
    (splitAtBars gs).head? = some [] ↔ gs = [] ∨ gs.head? = some (.token .bar) := by
  cases gs with
  | nil => simp [splitAtBars]
  | cons g gs =>
      by_cases hg : g = .token .bar
      · simp [hg, splitAtBars]
      · obtain ⟨part, parts, hsplit⟩ := List.exists_cons_of_ne_nil (splitAtBars_ne_nil gs)
        simp [splitAtBars_cons hg hsplit, hg]

theorem getLast?_cons_eq_some_iff {α : Type} {x y : α} {xs : List α} :
    (x :: xs).getLast? = some y ↔ (xs = [] ∧ x = y) ∨ xs.getLast? = some y := by
  cases xs with
  | nil => simp
  | cons z zs => simp [List.getLast?_cons_cons]

theorem nil_mem_tail_splitAtBars_iff :
    [] ∈ (splitAtBars gs).tail ↔
      gs.getLast? = some (.token .bar) ∨ [.token .bar, .token .bar] <:+: gs := by
  induction gs with
  | nil => simp [splitAtBars]
  | cons g gs ih =>
      obtain ⟨part, parts, hsplit⟩ := List.exists_cons_of_ne_nil (splitAtBars_ne_nil gs)
      have hhead : (splitAtBars gs).head? = some [] ↔ _ := head?_splitAtBars_eq_nil_iff
      rw [hsplit, List.tail_cons] at ih
      rw [hsplit, List.head?_cons, Option.some.injEq] at hhead
      rw [getLast?_cons_eq_some_iff, List.infix_cons_iff, List.cons_prefix_cons]
      by_cases hg : g = .token .bar
      · have hnext : [Group.token .bar] <+: gs ↔ gs.head? = some (.token .bar) := by
          cases gs <;> simp [eq_comm]
        rw [hg, splitAtBars, hsplit, List.tail_cons, List.mem_cons, eq_comm, hhead, ih, hnext]
        tauto
      · rw [splitAtBars_cons hg hsplit, List.tail_cons, ih]
        simp [hg, Ne.symm hg]

-- An alternative is empty at one of the ends or between two bars.
theorem nil_mem_splitAtBars_iff :
    [] ∈ splitAtBars gs ↔ gs = [] ∨ gs.head? = some (.token .bar) ∨
      gs.getLast? = some (.token .bar) ∨ [.token .bar, .token .bar] <:+: gs := by
  have htail : [] ∈ (splitAtBars gs).tail ↔ _ := nil_mem_tail_splitAtBars_iff
  have hhead : (splitAtBars gs).head? = some [] ↔ _ := head?_splitAtBars_eq_nil_iff
  obtain ⟨part, parts, hsplit⟩ := List.exists_cons_of_ne_nil (splitAtBars_ne_nil gs)
  rw [hsplit] at htail hhead ⊢
  rw [List.head?_cons, Option.some.injEq] at hhead
  rw [List.mem_cons, eq_comm, hhead, ← htail, List.tail_cons, or_assoc]

theorem enclose_ne_token (h : Group.enclose bracket content = .ok g) (t : Token) :
    g ≠ .token t := by
  rintro rfl
  have htokens := tokens_of_enclose h
  simp [Group.tokens] at htokens

theorem enclose_eq_error_iff :
    Group.enclose bracket content = .error e ↔
      bracket = .round ∧ [] ∈ splitAtBars content ∧ e = .emptyAlternative := by
  cases bracket with
  | round =>
      have hany : (splitAtBars content).any (·.isEmpty) = true ↔ [] ∈ splitAtBars content := by
        simp
      simp only [Group.enclose, true_and]
      split
      · rename_i hempty
        rw [Except.error.injEq, eq_comm]
        exact ⟨fun h => ⟨hany.mp hempty, h⟩, And.right⟩
      · rename_i hfull
        constructor
        · rintro ⟨⟩
        · exact fun h => absurd (hany.mpr h.1) hfull
  | square => simp [Group.enclose]
  | curly => simp [Group.enclose]

end Bars

namespace Nests

theorem eq_nil_iff (h : Nests ts gs) : ts = [] ↔ gs = [] := by
  cases h <;> simp

theorem head?_eq_bar_iff (h : Nests ts gs) :
    ts.head? = some .bar ↔ gs.head? = some (.token .bar) := by
  cases h with
  | nil => simp
  | token => simp
  | enclosed _ _ hg => simpa using enclose_ne_token hg .bar

theorem getLast?_eq_bar_iff (h : Nests ts gs) :
    ts.getLast? = some .bar ↔ gs.getLast? = some (.token .bar) := by
  induction h with
  | nil => simp
  | token _ _ h ih =>
      rw [getLast?_cons_eq_some_iff, getLast?_cons_eq_some_iff, h.eq_nil_iff, ih]
      simp
  | enclosed bracket _ hg h _ ih =>
      rw [List.getLast?_append_of_ne_nil _ (List.cons_ne_nil _ _), getLast?_cons_eq_some_iff,
        getLast?_cons_eq_some_iff, ih]
      simp [enclose_ne_token hg .bar]

theorem append_inv (h : Nests ts (gs ++ gs')) :
    ∃ front back, ts = front ++ back ∧ Nests front gs ∧ Nests back gs' := by
  induction gs generalizing ts with
  | nil => exact ⟨[], ts, rfl, .nil, h⟩
  | cons g gs ih =>
      rw [List.cons_append] at h
      cases h with
      | token hopening hclosing h =>
          obtain ⟨front, back, rfl, hfront, hback⟩ := ih h
          exact ⟨_ :: front, back, rfl, .token hopening hclosing hfront, hback⟩
      | enclosed bracket hinner hg h =>
          obtain ⟨front, back, rfl, hfront, hback⟩ := ih h
          exact ⟨_, back, by simp, .enclosed bracket hinner hg hfront, hback⟩

theorem token_inv (hopening : ∀ bracket, t ≠ .opening bracket) (h : Nests (t :: ts) gs) :
    ∃ gs', gs = .token t :: gs' ∧ Nests ts gs' := by
  cases h with
  | token _ _ h => exact ⟨_, rfl, h⟩
  | enclosed bracket => exact absurd rfl (hopening bracket)

theorem enclosed_inv (hinner : Balanced inner)
    (h : Nests (.opening bracket :: (inner ++ .closing bracket :: rest)) gs) :
    ∃ content g gs', gs = g :: gs' ∧ Nests inner content ∧
      Group.enclose bracket content = .ok g ∧ Nests rest gs' := by
  generalize hts : inner ++ .closing bracket :: rest = ts at h
  cases h with
  | token hopening => exact absurd rfl (hopening bracket)
  | enclosed _ hinner' hg h =>
      obtain ⟨rfl, -, rfl⟩ := hinner.append_closing_inj hinner'.balanced hts
      exact ⟨_, _, _, rfl, hinner', hg, h⟩

-- Balanced tokens at the front have groups of their own.
theorem of_balanced_append (hts : Balanced ts) (h : Nests (ts ++ rest) gs) :
    ∃ front back, gs = front ++ back ∧ Nests ts front ∧ Nests rest back := by
  induction hts generalizing gs with
  | nil => exact ⟨[], gs, rfl, .nil, h⟩
  | token hopening hclosing _ ih =>
      obtain ⟨gs', rfl, h'⟩ := h.token_inv hopening
      obtain ⟨front, back, rfl, hfront, hback⟩ := ih h'
      exact ⟨_ :: front, back, rfl, .token hopening hclosing hfront, hback⟩
  | enclosed bracket hinner _ _ ih =>
      rw [List.append_assoc, List.cons_append, List.cons_append] at h
      obtain ⟨content, g, gs', rfl, hcontent, hg, h'⟩ := enclosed_inv hinner h
      obtain ⟨front, back, rfl, hfront, hback⟩ := ih h'
      exact ⟨g :: front, back, rfl, .enclosed bracket hcontent hg hfront, hback⟩

theorem bars_infix_iff (h : Nests ts gs) :
    [.token .bar, .token .bar] <:+: gs ↔
      ∃ before after, ts = before ++ .bar :: .bar :: after ∧ Balanced before := by
  constructor
  · rintro ⟨front, back, rfl⟩
    rw [List.append_assoc] at h
    obtain ⟨before, rest, rfl, hbefore, hrest⟩ := h.append_inv
    cases hrest with
    | token _ _ hrest =>
        cases hrest with
        | token => exact ⟨before, _, rfl, hbefore.balanced⟩
        | enclosed _ _ hg => exact absurd rfl (enclose_ne_token hg .bar)
    | enclosed _ _ hg => exact absurd rfl (enclose_ne_token hg .bar)
  · rintro ⟨before, after, rfl, hbefore⟩
    obtain ⟨front, back, rfl, -, hback⟩ := of_balanced_append hbefore h
    obtain ⟨gs', rfl, hnext⟩ := hback.token_inv (by simp)
    obtain ⟨last, rfl, -⟩ := hnext.token_inv (by simp)
    exact ⟨front, last, by simp⟩

-- The alternatives of a content can be told from its tokens.
theorem hasAlternatives_iff (h : Nests ts gs) : HasAlternatives ts ↔ [] ∉ splitAtBars gs := by
  rw [nil_mem_splitAtBars_iff, ← h.eq_nil_iff, ← h.head?_eq_bar_iff, ← h.getLast?_eq_bar_iff,
    h.bars_infix_iff]
  constructor
  · rintro ⟨hne, hhead, hlast, hapart⟩ (hnil | hbar | hbar | ⟨before, after, heq, hbefore⟩)
    · exact hne hnil
    · exact hhead hbar
    · exact hlast hbar
    · exact hapart before after heq hbefore
  · intro hnone
    simp only [not_or, not_exists, not_and] at hnone
    obtain ⟨hne, hhead, hlast, hapart⟩ := hnone
    exact ⟨hne, hhead, hlast, hapart⟩

end Nests

section Choices

theorem HasFullChoices.of_part (h : HasFullChoices ts) (hpart : ts' <:+: ts) :
    HasFullChoices ts' := by
  rintro before inner after rfl hinner
  obtain ⟨front, back, rfl⟩ := hpart
  exact h (front ++ before) inner (after ++ back) (by simp) hinner

-- Balanced brackets lie in, before or behind each other, but do not cross.
theorem Balanced.within_or_beyond {before inner after outer rest : List Token}
    {bracket bracket' : Bracket} (hinner : Balanced inner) (houter : Balanced outer)
    (h : before ++ .opening bracket :: inner ++ .closing bracket :: after =
      outer ++ .closing bracket' :: rest) :
    (∃ more, outer = before ++ .opening bracket :: inner ++ .closing bracket :: more) ∨
      ∃ more, rest = more ++ .opening bracket :: inner ++ .closing bracket :: after := by
  -- If they crossed, then more brackets would be closed than opened behind the inner opener.
  have hcrossed {front : List Token} (hfront : Balanced (before ++ .opening bracket :: front))
      (hle : 0 ≤ depth front) : False := by
    have hbefore := hfront.depth_nonneg
    have hzero := hfront.depth_eq_zero
    rw [depth_append, depth, Token.weight] at hzero
    omega
  rw [List.append_assoc, List.cons_append] at h
  rcases List.append_eq_append_iff.mp h with ⟨more, rfl, hmore⟩ | ⟨more, rfl, hmore⟩
  · cases more with
    | nil => cases hmore
    | cons t more =>
        rw [List.cons_append] at hmore
        obtain ⟨rfl, hbehind⟩ := List.cons.inj hmore
        rcases List.append_eq_append_iff.mp hbehind with ⟨last, rfl, hlast⟩ | ⟨last, rfl, -⟩
        · cases last with
          | nil =>
              rw [List.append_nil] at houter
              exact (hcrossed houter (Int.le_of_eq hinner.depth_eq_zero.symm)).elim
          | cons t last =>
              rw [List.cons_append] at hlast
              obtain ⟨rfl, -⟩ := List.cons.inj hlast
              exact Or.inl ⟨last, by simp⟩
        · exact (hcrossed houter hinner.depth_nonneg).elim
  · cases more with
    | nil => cases hmore
    | cons t more =>
        rw [List.cons_append] at hmore
        obtain ⟨-, rfl⟩ := List.cons.inj hmore
        exact Or.inr ⟨more, by simp⟩

theorem Nests.hasFullChoices (h : Nests ts gs) : HasFullChoices ts := by
  induction h with
  | nil =>
      intro before inner after h
      simp at h
  | token hopening _ _ ih =>
      intro before inner after h hinner
      cases before with
      | nil => exact absurd (List.cons.inj h).1 (hopening .round)
      | cons t before => exact ih before inner after (List.cons.inj h).2 hinner
  | @enclosed bracket outer rest content gs g houter hg _ ihouter ih =>
      intro before inner after h hinner
      cases before with
      | nil =>
          obtain ⟨hbracket, h⟩ := List.cons.inj h
          obtain ⟨rfl, rfl, -⟩ := houter.balanced.append_closing_inj hinner h
          rw [houter.hasAlternatives_iff]
          intro hempty
          have herror := enclose_eq_error_iff.mpr ⟨rfl, hempty, rfl⟩
          cases hg.symm.trans herror
      | cons t before =>
          have h' := (List.cons.inj h).2.symm
          rcases hinner.within_or_beyond houter.balanced h' with ⟨more, hmore⟩ | ⟨more, hmore⟩
          · exact ihouter before inner more hmore hinner
          · exact ih more inner after hmore hinner

end Choices

-- Tokens without groups have a bracket that is not balanced, or round brackets with an alternative
-- that is empty.
theorem groups_eq_error (h : groups ts = .error e) :
    (∃ t ∈ ts, e = .mismatched t ∧ (∃ bracket, t = .opening bracket ∨ t = .closing bracket) ∧
        ¬Balanced ts) ∨
      (e = .emptyAlternative ∧ ¬HasFullChoices ts) := by
  induction ts using groups.induct generalizing e with
  | case1 =>
      rw [groups] at h
      cases h
  | case2 bracket ts hsplit =>
      rw [groups] at h
      split at h
      · cases h
        exact Or.inl ⟨_, List.mem_cons_self, rfl, ⟨bracket, Or.inl rfl⟩,
          not_balanced_of_splitAtCloser hsplit⟩
      · rename_i hsome
        cases hsplit.symm.trans hsome
  | case3 bracket ts inner rest hsplit hlength ihinner ihrest =>
      have hts := splitAtCloser_eq_some hsplit
      have hinner : inner <:+: .opening bracket :: ts :=
        ⟨[.opening bracket], .closing bracket :: rest, by simp [hts]⟩
      have hrest : rest <:+: .opening bracket :: ts :=
        ⟨.opening bracket :: inner ++ [.closing bracket], [], by simp [hts]⟩
      rw [groups_opening hsplit] at h
      rcases bind_eq_error.mp h with h | ⟨content, hcontent, h⟩
      · rcases ihinner h with ⟨t, ht, rfl, hbracket, hnot⟩ | ⟨rfl, hnot⟩
        · exact Or.inl ⟨t, hinner.subset ht, rfl, hbracket, fun hwhole =>
            hnot (balanced_of_splitAtCloser hsplit hwhole).1⟩
        · exact Or.inr ⟨rfl, fun hwhole => hnot (hwhole.of_part hinner)⟩
      · rcases bind_eq_error.mp h with h | ⟨g, hg, h⟩
        · obtain ⟨rfl, hempty, rfl⟩ := enclose_eq_error_iff.mp h
          have hnests := nests_of_groups hcontent
          refine Or.inr ⟨rfl, fun hwhole => hnests.hasAlternatives_iff.not_left.mpr hempty ?_⟩
          exact hwhole [] inner rest (by rw [hts]; rfl) hnests.balanced
        · rcases bind_eq_error.mp h with h | ⟨gs, hgs, h⟩
          · rcases ihrest h with ⟨t, ht, rfl, hbracket, hnot⟩ | ⟨rfl, hnot⟩
            · exact Or.inl ⟨t, hrest.subset ht, rfl, hbracket, fun hwhole =>
                hnot (balanced_of_splitAtCloser hsplit hwhole).2⟩
            · exact Or.inr ⟨rfl, fun hwhole => hnot (hwhole.of_part hrest)⟩
          · cases h
  | case4 bracket ts =>
      rw [groups] at h
      cases h
      exact Or.inl ⟨_, List.mem_cons_self, rfl, ⟨bracket, Or.inr rfl⟩, not_balanced_closing⟩
  | case5 t ts hopening hclosing ih =>
      rw [groups_token hopening hclosing, map_eq_error] at h
      rcases ih h with ⟨t', ht, rfl, hbracket, hnot⟩ | ⟨rfl, hnot⟩
      · exact Or.inl ⟨t', List.mem_cons_of_mem t ht, rfl, hbracket, fun hwhole =>
          hnot (balanced_of_token hopening hwhole)⟩
      · exact Or.inr ⟨rfl, fun hwhole => hnot (hwhole.of_part (List.suffix_cons t ts).isInfix)⟩

-- Tokens have groups just if their brackets are balanced and no alternative is empty. The groups
-- hold all of the tokens.
theorem groups_exact (ts : List Token) :
    ((∃ gs, groups ts = .ok gs) ↔ Balanced ts ∧ HasFullChoices ts) ∧
      ∀ gs, groups ts = .ok gs → tokensOfEach gs = ts := by
  refine ⟨⟨?_, ?_⟩, fun gs h => (nests_of_groups h).tokens_eq⟩
  · rintro ⟨gs, h⟩
    have hnests := nests_of_groups h
    exact ⟨hnests.balanced, hnests.hasFullChoices⟩
  · rintro ⟨hbalanced, hfull⟩
    cases h : groups ts with
    | ok gs => exact ⟨gs, rfl⟩
    | error e =>
        rcases groups_eq_error h with ⟨t, -, -, -, hnot⟩ | ⟨-, hnot⟩
        · exact absurd hbalanced hnot
        · exact absurd hfull hnot

-- A bar at the front of inner brackets is not one of the outer ones.
theorem groups_exact_bar_within :
    groups [.opening .round, .item "NP", .bar, .opening .square, .bar, .closing .square,
        .closing .round] =
      .ok [.choice [[.token (.item "NP")], [.sequence [.token .bar]]]] ∧
    tokensOfEach [.choice [[.token (.item "NP")], [.sequence [.token .bar]]]] =
      [.opening .round, .item "NP", .bar, .opening .square, .bar, .closing .square,
        .closing .round] := by
  have hbar : Nests [.bar] [.token .bar] := .token (by simp) (by simp) .nil
  have hinner : Nests [.opening .square, .bar, .closing .square] [.sequence [.token .bar]] :=
    .enclosed .square hbar rfl .nil
  have hcontent := Nests.token (t := .bar) (by simp) (by simp) hinner
  have hitem := Nests.token (t := .item "NP") (by simp) (by simp) hcontent
  have h := (Nests.enclosed .round hitem rfl .nil).areFound.groups_eq_ok
  exact ⟨h, (groups_exact _).2 _ h⟩

end HeadPercolation.Pattern
