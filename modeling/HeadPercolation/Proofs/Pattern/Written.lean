import HeadPercolation.Proofs.Pattern.Nesting
import HeadPercolation.Proofs.Pattern.Reading
import HeadPercolation.Proofs.Pattern.Tokens

namespace HeadPercolation.Pattern

-- Bracketed terms as pieces of text. An end mark stands last.
def Shape.pieces (contents : List String) : Shape → List String
  | set => Bracket.curly.opener :: contents ++ [Bracket.curly.closer]
  | sequence anchored =>
    Bracket.square.opener :: (contents ++ if anchored then [Token.finish.text] else []) ++
      [Bracket.square.closer]

mutual

-- The pieces of the text of a term. Its modifiers stand in the order in which they are read:
-- negation, item and capture name, contents, repetition.
def Term.pieces : Term → List String
  | .item i => [i.text]
  | .anyOf alternatives =>
    Bracket.round.opener ::
      [Token.bar.text].intercalate (piecesOfEach alternatives) ++ [Bracket.round.closer]
  | .containing term reach shape contents =>
    term.pieces ++ reach.sign :: shape.pieces (piecesOfEach contents).flatten
  | .capture term name => term.pieces.modifyHead (· ++ "=" ++ name)
  | .negated term => Token.negation.text :: term.pieces
  | .repeated term times => term.pieces ++ [times.sign]

def piecesOfEach : List Term → List (List String)
  | [] => []
  | term :: terms => term.pieces :: piecesOfEach terms

end

-- The text of a pattern with these terms. Spaces stand between its pieces.
def writtenTerms (terms : List Term) : String :=
  " ".intercalate (piecesOfEach terms).flatten

theorem Term.pieces_ne_nil (term : Term) : term.pieces ≠ [] := by
  induction term with
  | item i => simp [Term.pieces]
  | anyOf alternatives ih => simp [Term.pieces]
  | containing term reach shape contents ih ihc => simp [Term.pieces]
  | capture term name ih => simpa [Term.pieces] using ih
  | negated term ih => simp [Term.pieces]
  | repeated term times ih => simp [Term.pieces]

def Draft.containing (draft : Draft) (reach : Reach) (shape : Shape) (contents : List Term) :
    Draft :=
  { draft with core := .containing draft.core reach shape contents }

-- Contents stand behind the item and its name.
theorem Draft.pieces_containing (draft : Draft) (reach : Reach) (shape : Shape)
    (contents : List Term) :
    (draft.containing reach shape contents).term.pieces =
      draft.term.pieces ++ reach.sign :: shape.pieces (piecesOfEach contents).flatten := by
  obtain ⟨negated, core, name⟩ := draft
  obtain ⟨first, rest, hpieces⟩ := List.exists_cons_of_ne_nil core.pieces_ne_nil
  have honce : (Draft.term ⟨false, .containing core reach shape contents, name⟩).pieces =
      (Draft.term ⟨false, core, name⟩).pieces ++
        reach.sign :: shape.pieces (piecesOfEach contents).flatten := by
    cases name with
    | none => rfl
    | some name => simp [Draft.term, Term.pieces, hpieces]
  cases negated with
  | false => exact honce
  | true => exact congrArg (Token.negation.text :: ·) honce

section Items

variable {text : String}

-- A literal ends with a quote that is not the one it begins with.
theorem quote_inner {start : List Char} (hstart : start = ['@', '"'] ∨ start = ['"'])
    (hbegins : start.isPrefixOf text.toList = true) (hends : endsLiteral text.toList = true) :
    String.ofList start ++ String.ofList (text.toList.drop start.length).dropLast ++ "\"" =
      text := by
  obtain ⟨rest, hrest⟩ := List.isPrefixOf_iff_prefix.mp hbegins
  rw [← hrest, endsLiteral, Bool.and_eq_true, decide_eq_true_eq, beq_iff_eq] at hends
  obtain ⟨hlength, hlast⟩ := hends
  have hne : rest ≠ [] := by
    rintro rfl
    rcases hstart with rfl | rfl <;> simp at hlength
  rw [List.getLast?_append_of_ne_nil _ hne] at hlast
  obtain ⟨inner, rfl⟩ := List.getLast?_eq_some_iff.mp hlast
  apply String.toList_inj.mp
  rw [← hrest]
  simp

theorem Atom.text_ofText (h : beginsLiteral text.toList = true → endsLiteral text.toList = true) :
    (Atom.ofText text).text = text := by
  rw [beginsLiteral, Bool.or_eq_true] at h
  unfold Atom.ofText
  split
  · rename_i hany
    rw [beq_iff_eq.mp hany]
    rfl
  · split
    · rename_i hleaf
      exact quote_inner (Or.inl rfl) hleaf (h (Or.inr hleaf))
    · split
      · rename_i hwords
        exact quote_inner (Or.inr rfl) hwords (h (Or.inl hwords))
      · rfl

theorem Item.text_ofText (h : beginsLiteral text.toList = true → endsLiteral text.toList = true) :
    (Item.ofText text).text = text := by
  unfold Item.ofText
  split
  · rename_i hnamed
    obtain ⟨name, hname⟩ := List.isPrefixOf_iff_prefix.mp hnamed
    have hcut : text.toList.drop 1 = name := by
      rw [← hname]
      rfl
    rw [hcut]
    apply String.toList_inj.mp
    rw [← hname]
    simp [Item.text]
  · exact Atom.text_ofText h

theorem beginsLiteral_append {cs : List Char} (h : beginsLiteral cs = true) (ds : List Char) :
    beginsLiteral (cs ++ ds) = true := by
  simp only [beginsLiteral, Bool.or_eq_true, List.isPrefixOf_iff_prefix] at h ⊢
  exact h.imp (·.trans (List.prefix_append cs ds)) (·.trans (List.prefix_append cs ds))

-- An item is written as it was read, with its name.
theorem pieces_of_readItem {core : Term} {name : Option String}
    (hclosed : beginsLiteral text.toList = true → endsLiteral text.toList = true)
    (h : readItem text = .ok (core, name)) : (Draft.term ⟨false, core, name⟩).pieces = [text] := by
  have halone : (Draft.term ⟨false, .item (.ofText text), none⟩).pieces = [text] :=
    congrArg ([·]) (Item.text_ofText hclosed)
  unfold readItem at h
  split at h
  · cases h
    exact halone
  · rename_i hbegins
    split at h
    · cases h
      exact halone
    · rename_i front back hcut
      split at h
      · cases h
      · cases h
        have htext := Text.cutAt_eq_some hcut
        have hfront : (Item.ofText (String.ofList front)).text = String.ofList front := by
          apply Item.text_ofText
          intro hbegins'
          rw [String.toList_ofList] at hbegins'
          exact absurd (htext ▸ beginsLiteral_append hbegins' _) hbegins
        have hwhole : String.ofList front ++ "=" ++ String.ofList back = text := by
          apply String.toList_inj.mp
          rw [htext]
          simp
        simp only [Draft.term, Term.pieces, List.modifyHead_cons, hfront, hwhole,
          Bool.false_eq_true, if_false]

end Items

theorem tokens_text {t : Token} (h : ∀ text, t ≠ .item text) : tokens t.text = .ok [t] := by
  cases t with
  | opening bracket => cases bracket <;> rfl
  | closing bracket => cases bracket <;> rfl
  | repetition times => cases times <;> rfl
  | item text => exact absurd rfl (h text)
  | _ => rfl

-- Pieces of text, and the groups that are read from them. The groups are one alternative.
structure Spelling (pieces : List String) (gs : List Group) : Prop where
  tokenizes : Tokenizes pieces (tokensOfEach gs)
  areFound : AreFound gs
  bar_not_mem : .token .bar ∉ gs

namespace Spelling

variable {pieces pieces' : List String} {gs gs' content : List Group} {g : Group}
  {t : Token}

theorem nil : Spelling [] [] :=
  ⟨.nil, .nil, List.not_mem_nil⟩

theorem append (h : Spelling pieces gs) (h' : Spelling pieces' gs') :
    Spelling (pieces ++ pieces') (gs ++ gs') where
  tokenizes := by
    rw [tokensOfEach_append]
    exact h.tokenizes.append h'.tokenizes
  areFound := h.areFound.append h'.areFound
  bar_not_mem hmem := (List.mem_append.mp hmem).elim h.bar_not_mem h'.bar_not_mem

theorem token (h : tokens t.text = .ok [t]) (hopening : ∀ bracket, t ≠ .opening bracket)
    (hclosing : ∀ bracket, t ≠ .closing bracket) (hbar : t ≠ .bar) :
    Spelling [t.text] [.token t] where
  tokenizes := .cons h .nil
  areFound := .token hopening hclosing
  bar_not_mem := by simpa using Ne.symm hbar

theorem enclose (bracket : Bracket) (htokens : Tokenizes pieces (tokensOfEach content))
    (hcontent : AreFound content) (h : Group.enclose bracket content = .ok g) :
    Spelling (bracket.opener :: pieces ++ [bracket.closer]) [g] where
  tokenizes := by
    rw [tokensOfEach_singleton, tokens_of_enclose h]
    have hopener : tokens bracket.opener = .ok [.opening bracket] :=
      tokens_text (t := .opening bracket) (by simp)
    have hcloser : tokens bracket.closer = .ok [.closing bracket] :=
      tokens_text (t := .closing bracket) (by simp)
    exact (Tokenizes.cons hopener htokens).append (.cons hcloser .nil)
  areFound := hcontent.enclose h
  bar_not_mem := by
    intro hmem
    have htokens := tokens_of_enclose h
    rw [← List.mem_singleton.mp hmem] at htokens
    cases htokens

end Spelling

theorem spells_intercalate {written : List (List String)} {alternatives : List (List Group)}
    (h : List.Forall₂ Spelling written alternatives) :
    Tokenizes ([Token.bar.text].intercalate written)
        (tokensOfEach ([.token .bar].intercalate alternatives)) ∧
      AreFound ([.token .bar].intercalate alternatives) := by
  induction h with
  | nil => exact ⟨.nil, .nil⟩
  | @cons pieces gs written alternatives hspell hspells ih =>
      cases hspells with
      | nil =>
          rw [List.intercalate_singleton, List.intercalate_singleton]
          exact ⟨hspell.tokenizes, hspell.areFound⟩
      | cons =>
          have hbar : AreFound [.token .bar] := .token (by simp) (by simp)
          rw [List.intercalate_cons_cons, List.intercalate_cons_cons, tokensOfEach_append,
            tokensOfEach_append]
          exact ⟨(hspell.tokenizes.append (.cons rfl .nil)).append ih.1,
            (hspell.areFound.append hbar).append ih.2⟩

end HeadPercolation.Pattern
