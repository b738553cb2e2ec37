import HeadPercolation.Pattern.Tokens
import HeadPercolation.Proofs.Results

namespace HeadPercolation.Pattern

theorem fragments_cons {c : Char} (h : Text.isBlank c = false) (cs : List Char) :
    ∃ run rest, fragments (c :: cs) = (c :: run) :: rest := by
  simp only [fragments, h, Bool.false_eq_true, if_false]
  split
  · exact ⟨[], _, rfl⟩
  · split
    · exact ⟨[], [], rfl⟩
    · rename_i run rest _
      exact ⟨run, rest, rfl⟩

-- A character goes on with the next one if neither is a sign and the next one is not blank.
theorem exists_of_not_alone {c : Char} {cs : List Char}
    (h : ¬(signs.contains c ||
      cs.head?.all (fun d => Text.isBlank d || signs.contains d)) = true) :
    ∃ d ds, cs = d :: ds ∧ signs.contains c = false ∧ Text.isBlank d = false ∧
      signs.contains d = false := by
  cases cs with
  | nil => simp at h
  | cons d ds =>
      simp only [List.head?_cons, Option.all_some, Bool.or_eq_true, not_or,
        Bool.not_eq_true] at h
      exact ⟨d, ds, rfl, h⟩

theorem fragments_cons_of_not_alone {c : Char} {cs run : List Char} {rest : List (List Char)}
    (hblank : Text.isBlank c = false)
    (halone : ¬(signs.contains c ||
      cs.head?.all (fun d => Text.isBlank d || signs.contains d)) = true)
    (h : fragments cs = run :: rest) : fragments (c :: cs) = (c :: run) :: rest := by
  rw [fragments, h, if_neg (by simp [hblank]), if_neg halone]

-- No fragment goes on over a blank or a sign.
theorem fragments_append_cons {c : Char} (h : (Text.isBlank c || signs.contains c) = true)
    (before after : List Char) :
    fragments (before ++ c :: after) = fragments before ++ fragments (c :: after) := by
  induction before with
  | nil => rfl
  | cons d before ih =>
      have hhead : (before ++ c :: after).head?.all (fun e => Text.isBlank e || signs.contains e) =
          before.head?.all (fun e => Text.isBlank e || signs.contains e) := by
        cases before with
        | nil => simpa using h
        | cons e before => rfl
      rw [List.cons_append, fragments, fragments, hhead, ih]
      split
      · rfl
      · split
        · rfl
        · rename_i halone
          obtain ⟨e, es, rfl, -, hblank, -⟩ := exists_of_not_alone halone
          obtain ⟨run, rest, hfragments⟩ := fragments_cons hblank es
          rw [hfragments]
          rfl

theorem fragments_append_blank {c : Char} (h : Text.isBlank c = true) (before after : List Char) :
    fragments (before ++ c :: after) = fragments before ++ fragments after := by
  rw [fragments_append_cons (by simp [h]), fragments, if_pos h]

theorem fragments_of_mem_fragments {f cs : List Char} (h : f ∈ fragments cs) :
    fragments f = [f] := by
  induction cs generalizing f with
  | nil => cases h
  | cons c cs ih =>
      rw [fragments] at h
      split at h
      · exact ih h
      · rename_i hblank
        rw [Bool.not_eq_true] at hblank
        split at h
        · rcases List.mem_cons.mp h with rfl | h
          · simp [fragments, hblank]
          · exact ih h
        · rename_i halone
          obtain ⟨d, ds, rfl, hsign, hblank', hsign'⟩ := exists_of_not_alone halone
          obtain ⟨run, rest, hfragments⟩ := fragments_cons hblank' ds
          rw [hfragments] at h ih
          rcases List.mem_cons.mp h with rfl | h
          · have hrun := ih List.mem_cons_self
            simp only [fragments, hblank, hsign, List.head?_cons, Option.all_some, hblank', hsign',
              Bool.or_self, Bool.false_eq_true, if_false] at hrun ⊢
            rw [hrun]
          · exact ih (List.mem_cons_of_mem _ h)

-- A token that is read again from its own text, in which a literal is closed.
structure Token.IsLegible (t : Token) : Prop where
  tokens_text : tokens t.text = .ok [t]
  closed : beginsLiteral t.text.toList = true → endsLiteral t.text.toList = true

-- A fragment, or a literal that was begun and goes on with it.
def joined (begun : Option (List Char)) (f : List Char) : List Char :=
  match begun with
  | none => f
  | some start => start ++ ' ' :: f

theorem tokensFrom_cons (begun : Option (List Char)) (f : List Char) (fs : List (List Char)) :
    tokensFrom begun (f :: fs) =
      if beginsLiteral (joined begun f) && !endsLiteral (joined begun f) then
        tokensFrom (some (joined begun f)) fs
      else
        (tokensFrom none fs).map (Token.ofText (String.ofList (joined begun f)) :: ·) := by
  cases begun <;> rfl

theorem tokensFrom_append {begun : Option (List Char)} {fs : List (List Char)} {ts : List Token}
    (h : tokensFrom begun fs = .ok ts) (gs : List (List Char)) :
    tokensFrom begun (fs ++ gs) = (tokensFrom none gs).map (ts ++ ·) := by
  induction fs generalizing begun ts with
  | nil =>
      cases begun with
      | some start => cases h
      | none =>
          cases h
          rw [List.nil_append]
          cases tokensFrom none gs <;> rfl
  | cons f fs ih =>
      rw [tokensFrom_cons] at h
      rw [List.cons_append, tokensFrom_cons]
      split at h
      · rename_i hopen
        rw [if_pos hopen]
        exact ih h
      · rename_i hclosed
        obtain ⟨rest, hrest, rfl⟩ := map_eq_ok.mp h
        rw [if_neg hclosed, ih hrest]
        cases tokensFrom none gs <;> rfl

-- Literals are glued together from whole fragments, so the text of a token is cut into the
-- fragments that it was made of. Of the start of a literal, `hbegun` says the same.
theorem isLegible_of_mem_tokensFrom {begun : Option (List Char)} {fs : List (List Char)}
    {ts : List Token} (hfs : ∀ f ∈ fs, fragments f = [f])
    (hbegun : ∀ start, begun = some start → ∀ gs,
      tokensFrom none (fragments start ++ gs) = tokensFrom (some start) gs)
    (h : tokensFrom begun fs = .ok ts) : ∀ t ∈ ts, t.IsLegible := by
  induction fs generalizing begun ts with
  | nil =>
      cases begun with
      | some start => cases h
      | none =>
          cases h
          simp
  | cons f fs ih =>
      obtain ⟨hf, hfs⟩ := List.forall_mem_cons.mp hfs
      have hsame (gs : List (List Char)) :
          tokensFrom none (fragments (joined begun f) ++ gs) = tokensFrom begun (f :: gs) := by
        cases begun with
        | none => rw [joined, hf, List.singleton_append]
        | some start =>
            rw [joined, fragments_append_blank rfl, hf, List.append_assoc, List.singleton_append,
              hbegun start rfl]
      rw [tokensFrom_cons] at h
      split at h
      · rename_i hopen
        refine ih hfs (fun start hstart gs => ?_) h
        cases hstart
        rw [hsame, tokensFrom_cons, if_pos hopen]
      · rename_i hclosed
        obtain ⟨rest, hrest, rfl⟩ := map_eq_ok.mp h
        have halone : tokens (String.ofList (joined begun f)) =
            .ok [Token.ofText (String.ofList (joined begun f))] := by
          rw [tokens, String.toList_ofList, ← List.append_nil (fragments (joined begun f)), hsame,
            tokensFrom_cons, if_neg hclosed]
          rfl
        refine List.forall_mem_cons.mpr ⟨⟨?_, ?_⟩, ih hfs (by simp) hrest⟩
        · rw [Token.text_ofText, halone]
        · rw [Token.text_ofText, String.toList_ofList]
          simpa using hclosed

theorem isLegible_of_mem_tokens {pattern : String} {ts : List Token}
    (h : tokens pattern = .ok ts) : ∀ t ∈ ts, t.IsLegible :=
  isLegible_of_mem_tokensFrom (fun _ hf => fragments_of_mem_fragments hf) (by simp) h

-- A literal that was begun, and goes on with fragments.
def joinedAll (start : List Char) (fs : List (List Char)) : List Char :=
  fs.foldl (fun text f => text ++ ' ' :: f) start

-- The literal is not closed by any of the fragments that follow.
def StaysOpen (start : List Char) (fs : List (List Char)) : Prop :=
  ∀ more, more <+: fs → endsLiteral (joinedAll start more) = false

theorem staysOpen_cons_iff {start f : List Char} {fs : List (List Char)} :
    StaysOpen start (f :: fs) ↔
      endsLiteral start = false ∧ StaysOpen (joined (some start) f) fs := by
  constructor
  · intro h
    exact ⟨h [] List.nil_prefix, fun more hmore =>
      h (f :: more) (List.cons_prefix_cons.mpr ⟨rfl, hmore⟩)⟩
  · rintro ⟨hstart, h⟩ more hmore
    cases more with
    | nil => exact hstart
    | cons f' more =>
        obtain ⟨rfl, hrest⟩ := List.cons_prefix_cons.mp hmore
        exact h more hrest

-- One of the fragments begins a literal that is not closed.
def HasUnclosed (fs : List (List Char)) : Prop :=
  ∃ before f after, fs = before ++ f :: after ∧ beginsLiteral f = true ∧ StaysOpen f after

theorem HasUnclosed.cons {fs : List (List Char)} (h : HasUnclosed fs) (f : List Char) :
    HasUnclosed (f :: fs) := by
  obtain ⟨before, f', after, rfl, hbegins, hopen⟩ := h
  exact ⟨f :: before, f', after, rfl, hbegins, hopen⟩

-- The literal that is not closed was begun before the fragments or by one of them.
theorem tokensFrom_eq_error {begun : Option (List Char)} {fs : List (List Char)} {e : FormError}
    (hbegun : ∀ start, begun = some start → endsLiteral start = false)
    (h : tokensFrom begun fs = .error e) :
    e = .unclosedLiteral ∧
      ((∃ start, begun = some start ∧ StaysOpen start fs) ∨ HasUnclosed fs) := by
  induction fs generalizing begun with
  | nil =>
      cases begun with
      | none => cases h
      | some start =>
          cases h
          refine ⟨rfl, Or.inl ⟨start, rfl, fun more hmore => ?_⟩⟩
          rw [List.prefix_nil.mp hmore]
          exact hbegun start rfl
  | cons f fs ih =>
      rw [tokensFrom_cons] at h
      split at h
      · rename_i hliteral
        rw [Bool.and_eq_true, Bool.not_eq_true'] at hliteral
        obtain ⟨hbegins, hopen⟩ := hliteral
        obtain ⟨rfl, ⟨start, hstart, hrest⟩ | hrest⟩ := ih (by simpa using hopen) h
        · cases hstart
          refine ⟨rfl, ?_⟩
          cases begun with
          | none => exact Or.inr ⟨[], f, fs, rfl, hbegins, hrest⟩
          | some start =>
              exact Or.inl ⟨start, rfl, staysOpen_cons_iff.mpr ⟨hbegun start rfl, hrest⟩⟩
        · exact ⟨rfl, Or.inr (hrest.cons f)⟩
      · obtain ⟨rfl, ⟨start, hnone, -⟩ | hrest⟩ := ih (by simp) (map_eq_error.mp h)
        · cases hnone
        · exact ⟨rfl, Or.inr (hrest.cons f)⟩

-- Pieces of text with their tokens.
inductive Tokenizes : List String → List Token → Prop
  | nil : Tokenizes [] []
  | cons {piece : String} {pieces : List String} {ts ts' : List Token}
      (h : tokens piece = .ok ts) (hs : Tokenizes pieces ts') :
      Tokenizes (piece :: pieces) (ts ++ ts')

theorem Tokenizes.append {pieces pieces' : List String} {ts ts' : List Token}
    (h : Tokenizes pieces ts) (h' : Tokenizes pieces' ts') :
    Tokenizes (pieces ++ pieces') (ts ++ ts') := by
  induction h with
  | nil => exact h'
  | cons hpiece _ ih =>
      rw [List.cons_append, List.append_assoc]
      exact .cons hpiece ih

theorem tokens_append_space {before after : String} {ts ts' : List Token}
    (h : tokens before = .ok ts) (h' : tokens after = .ok ts') :
    tokens (before ++ " " ++ after) = .ok (ts ++ ts') := by
  have hcut : fragments (before ++ " " ++ after).toList =
      fragments before.toList ++ fragments after.toList := by
    rw [String.toList_append, String.toList_append, List.append_assoc]
    exact fragments_append_blank rfl before.toList after.toList
  have hafter : tokensFrom none (fragments after.toList) = .ok ts' := h'
  rw [tokens, hcut, tokensFrom_append h, hafter]
  rfl

-- Between spaces each piece is read as by itself.
theorem Tokenizes.tokens_intercalate {pieces : List String} {ts : List Token}
    (h : Tokenizes pieces ts) : tokens (" ".intercalate pieces) = .ok ts := by
  induction h with
  | nil => rfl
  | @cons piece pieces ts ts' hpiece hs ih =>
      cases pieces with
      | nil =>
          cases hs
          rw [String.intercalate_singleton, List.append_nil]
          exact hpiece
      | cons next pieces =>
          rw [String.intercalate_cons_cons]
          exact tokens_append_space hpiece ih

end HeadPercolation.Pattern
