import HeadPercolation.Proofs.Pattern.Balance

namespace HeadPercolation.Pattern

variable {bracket : Bracket} {content gs gs' : List Group} {g : Group}

theorem tokensOfEach_append (gs gs' : List Group) :
    tokensOfEach (gs ++ gs') = tokensOfEach gs ++ tokensOfEach gs' := by
  induction gs with
  | nil => rfl
  | cons g gs ih => rw [List.cons_append, tokensOfEach, tokensOfEach, ih, List.append_assoc]

theorem tokensOfEach_singleton (g : Group) : tokensOfEach [g] = g.tokens :=
  List.append_nil g.tokens

theorem splitAtBars_ne_nil (gs : List Group) : splitAtBars gs ≠ [] := by
  fun_cases splitAtBars gs <;> simp

theorem splitAtBars_cons (hg : g ≠ .token .bar) {part : List Group} {parts : List (List Group)}
    (h : splitAtBars gs = part :: parts) : splitAtBars (g :: gs) = (g :: part) :: parts := by
  rw [splitAtBars, h]
  exact hg

theorem splitAtBars_of_not_mem (h : .token .bar ∉ gs) : splitAtBars gs = [gs] := by
  induction gs with
  | nil => rfl
  | cons g gs ih =>
      obtain ⟨hg, hgs⟩ := not_or.mp (List.mem_cons.not.mp h)
      exact splitAtBars_cons (Ne.symm hg) (ih hgs)

theorem splitAtBars_append_bar (h : .token .bar ∉ gs) (rest : List Group) :
    splitAtBars (gs ++ .token .bar :: rest) = gs :: splitAtBars rest := by
  induction gs with
  | nil => rfl
  | cons g gs ih =>
      obtain ⟨hg, hgs⟩ := not_or.mp (List.mem_cons.not.mp h)
      exact splitAtBars_cons (Ne.symm hg) (ih hgs)

theorem splitAtBars_intercalate {parts : List (List Group)} (hne : parts ≠ [])
    (h : ∀ part ∈ parts, .token .bar ∉ part) :
    splitAtBars ([.token .bar].intercalate parts) = parts := by
  induction parts with
  | nil => exact absurd rfl hne
  | cons part parts ih =>
      obtain ⟨hpart, hparts⟩ := List.forall_mem_cons.mp h
      cases parts with
      | nil =>
          rw [List.intercalate_singleton]
          exact splitAtBars_of_not_mem hpart
      | cons next parts =>
          rw [List.intercalate_cons_cons, List.append_assoc, List.singleton_append,
            splitAtBars_append_bar hpart, ih (by simp) hparts]

theorem mem_of_mem_splitAtBars {part : List Group} (hpart : part ∈ splitAtBars gs)
    (hg : g ∈ part) : g ∈ gs := by
  induction gs generalizing part with
  | nil => simp_all [splitAtBars]
  | cons g' gs ih =>
      obtain ⟨first, rest, hsplit⟩ := List.exists_cons_of_ne_nil (splitAtBars_ne_nil gs)
      rw [hsplit] at ih
      by_cases hbar : g' = .token .bar
      · rw [hbar, splitAtBars, hsplit] at hpart
        rcases List.mem_cons.mp hpart with rfl | hpart
        · cases hg
        · exact List.mem_cons_of_mem g' (ih hpart hg)
      · rw [splitAtBars_cons hbar hsplit] at hpart
        rcases List.mem_cons.mp hpart with rfl | hpart
        · rcases List.mem_cons.mp hg with rfl | hg
          · exact List.mem_cons_self
          · exact List.mem_cons_of_mem g' (ih List.mem_cons_self hg)
        · exact List.mem_cons_of_mem g' (ih (List.mem_cons_of_mem first hpart) hg)

theorem tokensOfAlternatives_splitAtBars (gs : List Group) :
    tokensOfAlternatives (splitAtBars gs) = tokensOfEach gs ++ [.closing .round] := by
  induction gs with
  | nil => rfl
  | cons g gs ih =>
      obtain ⟨part, parts, hsplit⟩ := List.exists_cons_of_ne_nil (splitAtBars_ne_nil gs)
      rw [hsplit, tokensOfAlternatives] at ih
      by_cases hbar : g = .token .bar
      · rw [hbar, splitAtBars, hsplit, tokensOfAlternatives, tokensOfRest, List.cons_append, ih]
        rfl
      · rw [splitAtBars_cons hbar hsplit, tokensOfAlternatives, tokensOfEach, tokensOfEach,
          List.append_assoc, ih, List.append_assoc]

theorem tokens_of_enclose (h : Group.enclose bracket content = .ok g) :
    g.tokens = .opening bracket :: tokensOfEach content ++ [.closing bracket] := by
  cases bracket with
  | square =>
      cases h
      rfl
  | curly =>
      cases h
      rfl
  | round =>
      simp only [Group.enclose] at h
      split at h
      · cases h
      · cases h
        rw [Group.tokens, tokensOfAlternatives_splitAtBars]
        rfl

theorem groups_opening {ts inner rest : List Token}
    (h : splitAtCloser bracket 0 ts = some (inner, rest)) :
    groups (.opening bracket :: ts) = do
      let content ← groups inner
      let g ← Group.enclose bracket content
      let gs ← groups rest
      return g :: gs := by
  rw [groups]
  split
  · rename_i hnone
    cases h.symm.trans hnone
  · rename_i inner' rest' hsome
    cases h.symm.trans hsome
    rfl

theorem groups_token {t : Token} (hopening : ∀ bracket, t ≠ .opening bracket)
    (hclosing : ∀ bracket, t ≠ .closing bracket) (ts : List Token) :
    groups (t :: ts) = (groups ts).map (.token t :: ·) := by
  rw [groups]
  · rfl
  · exact fun bracket h => hopening bracket h
  · exact fun bracket h => hclosing bracket h

-- The groups of tokens, by what the first of them is.
inductive Nests : List Token → List Group → Prop
  | nil : Nests [] []
  | token {t : Token} {ts : List Token} {gs : List Group}
      (hopening : ∀ bracket, t ≠ .opening bracket) (hclosing : ∀ bracket, t ≠ .closing bracket)
      (h : Nests ts gs) : Nests (t :: ts) (.token t :: gs)
  | enclosed (bracket : Bracket) {inner rest : List Token} {content gs : List Group} {g : Group}
      (hinner : Nests inner content) (hg : Group.enclose bracket content = .ok g)
      (h : Nests rest gs) : Nests (.opening bracket :: inner ++ .closing bracket :: rest) (g :: gs)

theorem nests_of_groups {ts : List Token} (h : groups ts = .ok gs) : Nests ts gs := by
  induction ts using groups.induct generalizing gs with
  | case1 =>
      rw [groups] at h
      cases h
      exact .nil
  | case2 bracket ts hsplit =>
      rw [groups] at h
      split at h
      · cases h
      · rename_i hsome
        cases hsplit.symm.trans hsome
  | case3 bracket ts inner rest hsplit hlength ihinner ihrest =>
      rw [groups_opening hsplit] at h
      obtain ⟨content, hcontent, h⟩ := bind_eq_ok.mp h
      obtain ⟨g, hg, h⟩ := bind_eq_ok.mp h
      obtain ⟨gs, hgs, heq⟩ := bind_eq_ok.mp h
      cases heq
      rw [splitAtCloser_eq_some hsplit]
      exact .enclosed bracket (ihinner hcontent) hg (ihrest hgs)
  | case4 bracket ts =>
      rw [groups] at h
      cases h
  | case5 t ts hopening hclosing ih =>
      rw [groups_token hopening hclosing] at h
      obtain ⟨gs, hgs, rfl⟩ := map_eq_ok.mp h
      exact .token hopening hclosing (ih hgs)

namespace Nests

variable {ts : List Token}

-- Nothing is lost.
theorem tokens_eq (h : Nests ts gs) : tokensOfEach gs = ts := by
  induction h with
  | nil => rfl
  | token _ _ _ ih =>
      rw [tokensOfEach, ih]
      rfl
  | enclosed bracket _ hg _ ihinner ih =>
      rw [tokensOfEach, tokens_of_enclose hg, ihinner, ih]
      simp

theorem balanced (h : Nests ts gs) : Balanced ts := by
  induction h with
  | nil => exact .nil
  | token hopening hclosing _ ih => exact .token hopening hclosing ih
  | enclosed bracket _ _ _ ihinner ih => exact .enclosed bracket ihinner ih

end Nests

-- Groups that are found again in their tokens, whatever stands behind them. The search for a
-- closer from before them goes on behind them.
structure AreFound (gs : List Group) : Prop where
  splitAtCloser_append : ∀ (bracket : Bracket) (depth : Nat) (ts : List Token),
    splitAtCloser bracket depth (tokensOfEach gs ++ ts) =
      (splitAtCloser bracket depth ts).map fun (inner, rest) => (tokensOfEach gs ++ inner, rest)
  groups_append : ∀ ts, groups (tokensOfEach gs ++ ts) = (groups ts).map (gs ++ ·)

namespace AreFound

theorem nil : AreFound [] where
  splitAtCloser_append bracket depth ts := by
    simp [tokensOfEach]
  groups_append ts := by
    change groups ts = (groups ts).map id
    rw [Except.map_id]
    rfl

theorem append (h : AreFound gs) (h' : AreFound gs') : AreFound (gs ++ gs') where
  splitAtCloser_append bracket depth ts := by
    rw [tokensOfEach_append, List.append_assoc, h.splitAtCloser_append, h'.splitAtCloser_append,
      Option.map_map]
    simp only [Function.comp_def, List.append_assoc]
  groups_append ts := by
    rw [tokensOfEach_append, List.append_assoc, h.groups_append, h'.groups_append]
    cases groups ts with
    | error e => rfl
    | ok gs'' => simp [Except.map]

theorem token {t : Token} (hopening : ∀ bracket, t ≠ .opening bracket)
    (hclosing : ∀ bracket, t ≠ .closing bracket) : AreFound [.token t] where
  splitAtCloser_append := (Balanced.token hopening hclosing .nil).splitAtCloser_append
  groups_append ts := by
    rw [tokensOfEach_singleton, Group.tokens, List.singleton_append,
      groups_token hopening hclosing]
    rfl

theorem groups_eq_ok (h : AreFound gs) : groups (tokensOfEach gs) = .ok gs := by
  have hnil := h.groups_append []
  rw [List.append_nil, groups] at hnil
  rw [hnil]
  simp [Except.map]

theorem balanced (h : AreFound gs) : Balanced (tokensOfEach gs) :=
  (nests_of_groups h.groups_eq_ok).balanced

theorem enclose (h : AreFound content) (hg : Group.enclose bracket content = .ok g) :
    AreFound [g] where
  splitAtCloser_append := by
    rw [tokensOfEach_singleton, tokens_of_enclose hg]
    exact (Balanced.enclosed bracket h.balanced .nil).splitAtCloser_append
  groups_append ts := by
    have hsplit : splitAtCloser bracket 0 (tokensOfEach content ++ .closing bracket :: ts) = _ :=
      splitAtCloser_of_balanced h.balanced ts
    rw [tokensOfEach_singleton, tokens_of_enclose hg]
    simp only [List.cons_append, List.append_assoc, List.nil_append]
    rw [groups_opening hsplit, bind_of_eq_ok h.groups_eq_ok, bind_of_eq_ok hg]
    rfl

end AreFound

theorem Nests.areFound {ts : List Token} (h : Nests ts gs) : AreFound gs := by
  induction h with
  | nil => exact .nil
  | token hopening hclosing _ ih => exact (AreFound.token hopening hclosing).append ih
  | enclosed bracket _ hg _ ihinner ih => exact (ihinner.enclose hg).append ih

theorem groups_append {ts ts' : List Token} (h : groups ts = .ok gs) (h' : groups ts' = .ok gs') :
    groups (ts ++ ts') = .ok (gs ++ gs') := by
  have hnests := nests_of_groups h
  rw [← hnests.tokens_eq, hnests.areFound.groups_append, h']
  rfl

end HeadPercolation.Pattern
