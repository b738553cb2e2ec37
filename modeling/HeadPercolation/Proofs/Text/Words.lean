import HeadPercolation.Text.Split
import Mathlib.Data.List.TakeWhile

namespace HeadPercolation.Text

theorem head?_splitOnP (p : Char → Bool) (cs : List Char) :
    (cs.splitOnP p).head? = some (cs.takeWhile (!p ·)) := by
  induction cs with
  | nil => rfl
  | cons c cs ih =>
      rw [List.splitOnP_cons_eq_if_modifyHead]
      cases hc : p c with
      | true => simp [hc]
      | false => simp [hc, ih]

-- A piece holds no mark.
theorem of_mem_splitOnP {p : Char → Bool} {cs piece : List Char} (h : piece ∈ cs.splitOnP p) :
    ∀ c ∈ piece, p c = false ∧ c ∈ cs := by
  induction cs generalizing piece with
  | nil => simp_all
  | cons d cs ih =>
      rw [List.splitOnP_cons_eq_if_modifyHead] at h
      split at h
      · rcases List.mem_cons.mp h with rfl | hmem
        · simp
        · exact fun c hc => (ih hmem c hc).imp_right (List.mem_cons_of_mem d)
      · rename_i hd
        obtain ⟨first, pieces, hpieces⟩ := List.exists_cons_of_ne_nil (List.splitOnP_ne_nil p cs)
        rw [hpieces, List.modifyHead_cons] at h
        rw [hpieces] at ih
        intro c hc
        rcases List.mem_cons.mp h with rfl | hmem
        · rcases List.mem_cons.mp hc with rfl | hfirst
          · simpa using hd
          · exact (ih List.mem_cons_self c hfirst).imp_right (List.mem_cons_of_mem d)
        · exact (ih (List.mem_cons_of_mem first hmem) c hc).imp_right (List.mem_cons_of_mem d)

-- A text of white space.
def AreBlank (text : List Char) : Prop :=
  ∀ c ∈ text, isBlank c = true

theorem words_append_blank {c : Char} (hc : isBlank c = true) (before after : List Char) :
    words (before ++ c :: after) = words before ++ words after := by
  rw [words, List.splitOnP_append_cons before after hc, List.filter_append]
  rfl

theorem words_blank_append {before : List Char} (h : AreBlank before) (text : List Char) :
    words (before ++ text) = words text := by
  induction before with
  | nil => rfl
  | cons c before ih =>
      obtain ⟨hc, hbefore⟩ := List.forall_mem_cons.mp h
      rw [List.cons_append, ← ih hbefore]
      exact words_append_blank hc [] _

theorem words_of_areBlank {text : List Char} (h : AreBlank text) : words text = [] := by
  simpa [words] using words_blank_append h []

theorem words_solid {word : List Char} (hne : word ≠ []) (hword : ∀ c ∈ word, isBlank c = false) :
    words word = [word] := by
  rw [words, List.splitOnP_eq_singleton hword]
  simp [hne]

theorem of_mem_words {text word : List Char} (h : word ∈ words text) :
    word ≠ [] ∧ ∀ c ∈ word, isBlank c = false ∧ c ∈ text := by
  obtain ⟨hmem, hne⟩ := List.mem_filter.mp h
  exact ⟨by simpa using hne, of_mem_splitOnP hmem⟩

theorem firstWord_append {word rest : List Char} {blank : Char} (hne : word ≠ [])
    (hword : ∀ c ∈ word, isBlank c = false) (hblank : isBlank blank = true) :
    firstWord (word ++ blank :: rest) = some (word, trimLeft rest) := by
  cases word with
  | nil => exact absurd rfl hne
  | cons c word =>
      have hleft : trimLeft (c :: word ++ blank :: rest) = c :: word ++ blank :: rest :=
        List.dropWhile_cons_of_neg (by simp [hword c List.mem_cons_self])
      have hbefore : (c :: word ++ blank :: rest).takeWhile (!isBlank ·) = c :: word := by
        rw [List.takeWhile_append_of_pos (by simpa using hword),
          List.takeWhile_cons_of_neg (by simp [hblank]), List.append_nil]
      have hbehind : (c :: word ++ blank :: rest).dropWhile (!isBlank ·) = blank :: rest := by
        rw [List.dropWhile_append_of_pos (by simpa using hword),
          List.dropWhile_cons_of_neg (by simp [hblank])]
      have hskip : trimLeft (blank :: rest) = trimLeft rest :=
        List.dropWhile_cons_of_pos hblank
      rw [List.cons_append] at hleft hbefore hbehind ⊢
      rw [firstWord, hleft]
      dsimp only
      rw [hbefore, hbehind, hskip]

-- The first word is a word, and a text keeps its characters.
theorem of_firstWord {text word rest : List Char} (h : firstWord text = some (word, rest)) :
    word ≠ [] ∧ (∀ c ∈ word, isBlank c = false ∧ c ∈ text) ∧ ∀ c ∈ rest, c ∈ text := by
  unfold firstWord at h
  split at h
  · cases h
  · rename_i c cs htrim
    rw [trimLeft] at htrim
    have hc : isBlank c = false := by
      have hhead := List.head?_dropWhile_not isBlank text
      rw [htrim] at hhead
      simpa using hhead
    have hkept {d : Char} (hd : d ∈ c :: cs) : d ∈ text :=
      List.dropWhile_subset isBlank (htrim ▸ hd)
    cases h
    refine ⟨by simp [hc], fun d hd => ⟨?_, hkept (List.takeWhile_subset _ hd)⟩, fun d hd => ?_⟩
    · simpa using List.mem_takeWhile_imp hd
    · exact hkept (List.dropWhile_subset _ (List.dropWhile_subset _ hd))

theorem trimLeft_blank_append {before : List Char} (h : AreBlank before) (text : List Char) :
    trimLeft (before ++ text) = trimLeft text :=
  List.dropWhile_append_of_pos h

theorem firstWord_blank_append {before : List Char} (h : AreBlank before) (text : List Char) :
    firstWord (before ++ text) = firstWord text := by
  rw [firstWord, trimLeft_blank_append h, firstWord]

-- A text of these tokens. There is white space between them, and there may be some before the first
-- and behind the last.
inductive Spaced : List String → List Char → Prop where
  | last {token : String} {before after : List Char} (hbefore : AreBlank before)
      (hafter : AreBlank after) : Spaced [token] (before ++ token.toList ++ after)
  | next {token : String} {tokens : List String} {before text : List Char} {c : Char}
      (hbefore : AreBlank before) (hc : isBlank c = true) (htext : Spaced tokens text) :
      Spaced (token :: tokens) (before ++ token.toList ++ c :: text)

-- A string that can be a token of such a text.
structure IsToken (token : String) : Prop where
  ne_empty : token ≠ ""
  not_blank : ∀ c ∈ token.toList, isBlank c = false

variable {tokens : List String} {text : List Char}

theorem IsToken.of_all {token : String} (hne : token ≠ "")
    (h : token.toList.all (!isBlank ·) = true) : IsToken token :=
  ⟨hne, by simpa using h⟩

theorem IsToken.toList_ne_nil {token : String} (h : IsToken token) : token.toList ≠ [] :=
  fun hnil => h.ne_empty (String.toList_eq_nil_iff.mp hnil)

theorem IsToken.words {token : String} (h : IsToken token) :
    words token.toList = [token.toList] :=
  words_solid h.toList_ne_nil h.not_blank

theorem Spaced.words (h : Spaced tokens text) (htokens : ∀ token ∈ tokens, IsToken token) :
    words text = tokens.map String.toList := by
  induction h with
  | @last token before after hbefore hafter =>
      have htoken : IsToken token := htokens token List.mem_cons_self
      rw [List.append_assoc, words_blank_append hbefore]
      cases after with
      | nil => rw [List.append_nil, htoken.words, List.map_singleton]
      | cons c after =>
          obtain ⟨hc, hafter⟩ := List.forall_mem_cons.mp hafter
          rw [words_append_blank hc, htoken.words, words_of_areBlank hafter]
          rfl
  | @next token tokens before text c hbefore hc _ ih =>
      obtain ⟨htoken, htokens⟩ := List.forall_mem_cons.mp htokens
      rw [List.append_assoc, words_blank_append hbefore, words_append_blank hc, htoken.words,
        ih htokens]
      rfl

theorem Spaced.of_mem (h : Spaced tokens text) {c : Char} (hc : c ∈ text) :
    isBlank c = true ∨ ∃ token ∈ tokens, c ∈ token.toList := by
  induction h with
  | @last token before after hbefore hafter =>
      rcases List.mem_append.mp hc with hc | hc
      · rcases List.mem_append.mp hc with hc | hc
        · exact Or.inl (hbefore c hc)
        · exact Or.inr ⟨token, List.mem_cons_self, hc⟩
      · exact Or.inl (hafter c hc)
  | @next token tokens before text d hbefore hd _ ih =>
      rcases List.mem_append.mp hc with hc | hc
      · rcases List.mem_append.mp hc with hc | hc
        · exact Or.inl (hbefore c hc)
        · exact Or.inr ⟨token, List.mem_cons_self, hc⟩
      · rcases List.mem_cons.mp hc with rfl | hc
        · exact Or.inl hd
        · exact (ih hc).imp_right fun ⟨other, hmem, hother⟩ =>
            ⟨other, List.mem_cons_of_mem token hmem, hother⟩

theorem IsToken.trimLeft_append {token : String} (h : IsToken token) (text : List Char) :
    trimLeft (token.toList ++ text) = token.toList ++ text := by
  obtain ⟨c, cs, hchars⟩ := List.exists_cons_of_ne_nil h.toList_ne_nil
  have hc : isBlank c = false := h.not_blank c (by simp [hchars])
  rw [hchars, List.cons_append]
  exact List.dropWhile_cons_of_neg (by simp [hc])

theorem Spaced.trimLeft (h : Spaced tokens text) (htokens : ∀ token ∈ tokens, IsToken token) :
    Spaced tokens (trimLeft text) := by
  have hnone : AreBlank [] := List.forall_mem_nil _
  cases h with
  | last hbefore hafter =>
      have htoken := htokens _ List.mem_cons_self
      rw [List.append_assoc, trimLeft_blank_append hbefore, htoken.trimLeft_append]
      exact .last hnone hafter
  | next hbefore hc htext =>
      have htoken := htokens _ List.mem_cons_self
      rw [List.append_assoc, trimLeft_blank_append hbefore, htoken.trimLeft_append]
      exact .next hnone hc htext

theorem Spaced.ne_nil (h : Spaced tokens text) (htokens : ∀ token ∈ tokens, IsToken token) :
    text ≠ [] := by
  cases h with
  | last => simp [(htokens _ List.mem_cons_self).toList_ne_nil]
  | next => simp

theorem Spaced.blank_cons (h : Spaced tokens text) {c : Char} (hc : isBlank c = true) :
    Spaced tokens (c :: text) := by
  cases h with
  | last hbefore hafter => exact .last (List.forall_mem_cons.mpr ⟨hc, hbefore⟩) hafter
  | next hbefore hd htext => exact .next (List.forall_mem_cons.mpr ⟨hc, hbefore⟩) hd htext

theorem Spaced.firstWord {token : String} (h : Spaced (token :: tokens) text) (hne : tokens ≠ [])
    (htokens : ∀ other ∈ token :: tokens, IsToken other) :
    ∃ rest, firstWord text = some (token.toList, rest) ∧ Spaced tokens rest := by
  obtain ⟨htoken, htokens⟩ := List.forall_mem_cons.mp htokens
  cases h with
  | last => exact absurd rfl hne
  | next hbefore hc htext =>
      rw [List.append_assoc, firstWord_blank_append hbefore,
        firstWord_append htoken.toList_ne_nil htoken.not_blank hc]
      exact ⟨_, rfl, htext.trimLeft htokens⟩

-- A token between others divides the text.
theorem Spaced.exists_of_append {before after : List String} {mark : String}
    (h : Spaced (before ++ mark :: after) text) (hbefore : before ≠ []) (hafter : after ≠ []) :
    ∃ left right, text = left ++ mark.toList ++ right ∧ Spaced before left ∧
      Spaced after right := by
  induction before generalizing text with
  | nil => exact absurd rfl hbefore
  | cons token before ih =>
      rw [List.cons_append] at h
      generalize htokens : before ++ mark :: after = tokens at h
      cases h with
      | last => simp at htokens
      | @next _ _ blanks text c hblanks hc htext =>
          subst htokens
          by_cases hlast : before = []
          · subst hlast
            rw [List.nil_append] at htext
            cases htext with
            | last => exact absurd rfl hafter
            | @next _ _ blanks' text c' hblanks' hc' htext =>
                refine ⟨blanks ++ token.toList ++ c :: blanks', c' :: text, by simp, ?_,
                  htext.blank_cons hc'⟩
                exact .last hblanks (List.forall_mem_cons.mpr ⟨hc, hblanks'⟩)
          · obtain ⟨left, right, rfl, hleft, hright⟩ := ih htext hlast
            exact ⟨blanks ++ token.toList ++ c :: left, right, by simp, .next hblanks hc hleft,
              hright⟩

theorem spaced_intercalate (hne : tokens ≠ []) :
    Spaced tokens (" ".intercalate tokens).toList := by
  have hnone : AreBlank [] := List.forall_mem_nil _
  rw [String.toList_intercalate]
  induction tokens with
  | nil => exact absurd rfl hne
  | cons token tokens ih =>
      cases tokens with
      | nil => simpa using @Spaced.last token [] [] hnone hnone
      | cons next tokens =>
          rw [List.map_cons, List.map_cons, List.intercalate_cons_cons, List.append_assoc]
          exact .next hnone rfl (ih (List.cons_ne_nil next tokens))

end HeadPercolation.Text
