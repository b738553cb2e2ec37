import HeadPercolation.Proofs.Pattern.Matching
import HeadPercolation.Proofs.Pattern.Writing

namespace HeadPercolation.Pattern

section Quoting

variable {start text f last cs : List Char} {fs : List (List Char)}

theorem append_intercalate_cons {α : Type} (xs ys sep : List α) (rest : List (List α)) :
    xs ++ sep.intercalate (ys :: rest) = sep.intercalate ((xs ++ ys) :: rest) := by
  cases rest <;> simp [List.intercalate_cons_cons]

theorem joinedAll_eq_intercalate (start : List Char) (fs : List (List Char)) :
    joinedAll start fs = [' '].intercalate (start :: fs) := by
  induction fs generalizing start with
  | nil => simp [joinedAll]
  | cons f fs ih =>
      have hrest : joinedAll start (f :: fs) = joinedAll (start ++ ' ' :: f) fs := rfl
      rw [hrest, ih, List.intercalate_cons_cons, append_intercalate_cons, List.append_assoc,
        List.singleton_append]

-- A closing quote ends the last fragment, and no other quote stands behind it or before it.
theorem fragments_append_quote (h : '"' ∉ cs) :
    ∃ fs last, fragments (cs ++ ['"']) = fs ++ [last] ∧ (∀ f ∈ fs, '"' ∉ f) ∧
      last.getLast? = some '"' := by
  induction cs with
  | nil => exact ⟨[], ['"'], rfl, by simp, rfl⟩
  | cons c cs ih =>
      obtain ⟨hc, hcs⟩ := not_or.mp (List.mem_cons.not.mp h)
      obtain ⟨fs, last, hfragments, hfs, hlast⟩ := ih hcs
      rw [List.cons_append]
      by_cases hblank : Text.isBlank c = true
      · rw [fragments, if_pos hblank]
        exact ⟨fs, last, hfragments, hfs, hlast⟩
      · rw [Bool.not_eq_true] at hblank
        by_cases halone : (signs.contains c ||
            (cs ++ ['"']).head?.all (fun d => Text.isBlank d || signs.contains d)) = true
        · rw [fragments, if_neg (by simp [hblank]), if_pos halone, hfragments]
          exact ⟨[c] :: fs, last, rfl, List.forall_mem_cons.mpr ⟨by simpa using hc, hfs⟩, hlast⟩
        · cases fs with
          | nil =>
              rw [List.nil_append] at hfragments
              rw [fragments_cons_of_not_alone hblank halone hfragments]
              refine ⟨[], c :: last, rfl, by simp, ?_⟩
              rw [← List.singleton_append, List.getLast?_append, hlast, Option.some_or]
          | cons f fs =>
              obtain ⟨hf, hfs⟩ := List.forall_mem_cons.mp hfs
              rw [fragments_cons_of_not_alone hblank halone hfragments]
              refine ⟨(c :: f) :: fs, last, rfl, List.forall_mem_cons.mpr ⟨?_, hfs⟩, hlast⟩
              exact List.mem_cons.not.mpr (not_or.mpr ⟨hc, hf⟩)

-- An opening quote stands at the beginning of the first fragment.
theorem fragments_quote_append (hstart : start = ['@', '"'] ∨ start = ['"']) (cs : List Char) :
    ∃ run rest, fragments (start ++ cs) = (start ++ run) :: rest ∧
      ((run = [] ∧ rest = fragments cs) ∨ run :: rest = fragments cs) := by
  have hquote : ∃ run rest, fragments ('"' :: cs) = ('"' :: run) :: rest ∧
      ((run = [] ∧ rest = fragments cs) ∨ run :: rest = fragments cs) := by
    by_cases halone : (signs.contains '"' ||
        cs.head?.all (fun d => Text.isBlank d || signs.contains d)) = true
    · rw [fragments, if_neg (by decide), if_pos halone]
      exact ⟨[], fragments cs, rfl, Or.inl ⟨rfl, rfl⟩⟩
    · obtain ⟨d, ds, rfl, -, hd, -⟩ := exists_of_not_alone halone
      obtain ⟨run, rest, hrest⟩ := fragments_cons hd ds
      rw [fragments_cons_of_not_alone (by decide) halone hrest]
      exact ⟨d :: run, rest, rfl, Or.inr hrest.symm⟩
  obtain ⟨run, rest, hfragments, hcs⟩ := hquote
  refine ⟨run, rest, ?_, hcs⟩
  rcases hstart with rfl | rfl
  · exact fragments_cons_of_not_alone (by decide) (by simp; decide) hfragments
  · exact hfragments

theorem endsLiteral_eq_false (hf : '"' ∉ f) (hne : f ≠ []) (text : List Char) :
    endsLiteral (text ++ f) = false := by
  have hlast : (text ++ f).getLast? ≠ some '"' := by
    rw [List.getLast?_append_of_ne_nil _ hne]
    exact fun hquote => hf (List.mem_of_getLast? hquote)
  rw [endsLiteral, Bool.and_eq_false_iff, beq_eq_false_iff_ne]
  exact Or.inr hlast

theorem endsLiteral_eq_true (hlast : last.getLast? = some '"')
    (hstart : start = ['@', '"'] ∨ start = ['"'] ∨ 2 ≤ start.length) :
    endsLiteral (start ++ last) = true := by
  have hne : last ≠ [] := by
    rintro rfl
    cases hlast
  have hpos := List.length_pos_iff.mpr hne
  rw [endsLiteral, Bool.and_eq_true, decide_eq_true_eq, beq_iff_eq,
    List.getLast?_append_of_ne_nil _ hne, List.length_append]
  refine ⟨?_, hlast⟩
  rcases hstart with rfl | rfl | hlength
  · simp
    omega
  · simp
    omega
  · split <;> omega

-- A literal that has been begun goes on up to the quote.
theorem tokensFrom_quoted (hbegins : beginsLiteral text = true) (hfs : ∀ f ∈ fs, '"' ∉ f)
    (hlast : last.getLast? = some '"') :
    tokensFrom (some text) (fs ++ [last]) =
      .ok [Token.ofText (String.ofList (joinedAll text (fs ++ [last])))] := by
  induction fs generalizing text with
  | nil =>
      have hends : endsLiteral (text ++ [' '] ++ last) = true := by
        refine endsLiteral_eq_true hlast (Or.inr (Or.inr ?_))
        cases text with
        | nil => cases hbegins
        | cons c text => simp
      rw [List.append_assoc, List.singleton_append] at hends
      rw [List.nil_append, tokensFrom_cons, joined, hends, Bool.not_true, Bool.and_false,
        if_neg Bool.false_ne_true]
      rfl
  | cons f fs ih =>
      obtain ⟨hf, hfs⟩ := List.forall_mem_cons.mp hfs
      have hopen : endsLiteral (text ++ ' ' :: f) = false :=
        endsLiteral_eq_false (by simpa using hf) (List.cons_ne_nil ' ' f) text
      have hnext : beginsLiteral (text ++ ' ' :: f) = true := beginsLiteral_append hbegins _
      rw [List.cons_append, tokensFrom_cons, joined, hopen, hnext]
      exact ih hnext hfs

theorem endsLiteral_start_append (hstart : start = ['@', '"'] ∨ start = ['"'])
    (hf : '"' ∉ f) : endsLiteral (start ++ f) = false := by
  by_cases hnil : f = []
  · rw [hnil, List.append_nil]
    rcases hstart with rfl | rfl <;> rfl
  · exact endsLiteral_eq_false hf hnil start

theorem beginsLiteral_start_append (hstart : start = ['@', '"'] ∨ start = ['"'])
    (f : List Char) : beginsLiteral (start ++ f) = true := by
  apply beginsLiteral_append
  rcases hstart with rfl | rfl <;> rfl

-- A text between quotes is one token, with single spaces between its fragments.
theorem tokens_quoted (hstart : start = ['@', '"'] ∨ start = ['"']) (hcs : '"' ∉ cs) :
    tokens (String.ofList (start ++ cs ++ ['"'])) =
      .ok [Token.ofText
        (String.ofList ([' '].intercalate (fragments (start ++ cs ++ ['"']))))] := by
  obtain ⟨fs, last, hclose, hfs, hlast⟩ := fragments_append_quote hcs
  obtain ⟨run, rest, hopen, hrun⟩ := fragments_quote_append hstart (cs ++ ['"'])
  have hbegins := beginsLiteral_start_append hstart run
  rw [tokens, String.toList_ofList, List.append_assoc, hopen, ← joinedAll_eq_intercalate,
    tokensFrom_cons, joined, hbegins, Bool.true_and]
  rcases hrun with ⟨rfl, rfl⟩ | hrun
  · rw [endsLiteral_start_append hstart List.not_mem_nil, hclose]
    exact tokensFrom_quoted hbegins hfs hlast
  · rw [hclose] at hrun
    cases fs with
    | nil =>
        obtain ⟨rfl, rfl⟩ := List.cons.inj hrun
        rw [endsLiteral_eq_true hlast (hstart.imp_right Or.inl)]
        rfl
    | cons f fs =>
        obtain ⟨hf, hothers⟩ := List.forall_mem_cons.mp hfs
        obtain ⟨rfl, rfl⟩ := List.cons.inj hrun
        rw [endsLiteral_start_append hstart hf]
        exact tokensFrom_quoted hbegins hothers hlast

theorem prefix_intercalate_fragments (hstart : start = ['@', '"'] ∨ start = ['"'])
    (cs : List Char) : start <+: [' '].intercalate (fragments (start ++ cs)) := by
  obtain ⟨run, rest, hopen, -⟩ := fragments_quote_append hstart cs
  rw [hopen]
  cases rest with
  | nil => simp
  | cons f rest => simp [List.intercalate_cons_cons]

end Quoting

section Compiling

variable {pattern text : String} {start cs : List Char} {atom : String → Atom}

-- The two kinds of literals, by what they begin with.
inductive Opens : List Char → (String → Atom) → Prop
  | leaf : Opens ['@', '"'] .leaf
  | words : Opens ['"'] .words

theorem Opens.start_eq (h : Opens start atom) : start = ['@', '"'] ∨ start = ['"'] := by
  cases h with
  | leaf => exact Or.inl rfl
  | words => exact Or.inr rfl

theorem Opens.text_eq (h : Opens start atom) (literal : String) :
    (atom literal).text.toList = start ++ literal.toList ++ ['"'] := by
  cases h <;> simp [Atom.text]

theorem Opens.exists_ofText_eq (h : Opens start atom) (hbegins : start <+: text.toList) :
    ∃ literal, Item.ofText text = .atom (atom literal) := by
  obtain ⟨rest, hrest⟩ := hbegins
  have hany : (text == ".") = false := by
    rw [beq_eq_false_iff_ne]
    rintro rfl
    cases h <;> cases hrest
  cases h <;> simp [Item.ofText, Atom.ofText, Text.startsWith, hany, ← hrest]

theorem ofText_of_beginsLiteral (h : beginsLiteral text.toList = true) :
    Token.ofText text = .item text := by
  unfold Token.ofText
  split <;> first | rfl | exact absurd h (by decide)

theorem groups_item (text : String) : groups [.item text] = .ok [.token (.item text)] := by
  rw [groups_token (by simp) (by simp), groups]
  rfl

theorem parse_of_tokens_item (h : tokens pattern = .ok [.item text]) :
    parse pattern = .ok [.token (.item text)] :=
  (bind_of_eq_ok h).trans (groups_item text)

theorem readTerms_item {core : Term} {name : Option String}
    (h : readItem text = .ok (core, name)) (place : Place) :
    readTerms place (elementsOf [.token (.item text)]) =
      .ok ⟨[Draft.term ⟨false, core, name⟩], false⟩ := by
  have hcore : readCore (Group.token (.item text)).element = .ok (core, name) := h
  exact bind_of_eq_ok (after_of_readCore hcore place)

theorem compile_of_readItem {core : Term} {name : Option String}
    (htokens : tokens pattern = .ok [.item text]) (hread : readItem text = .ok (core, name)) :
    compile pattern = .ok [Draft.term ⟨false, core, name⟩] := by
  rw [compile, bind_of_eq_ok (parse_of_tokens_item htokens), termsOf, readTerms_item hread]
  rfl

-- A text between quotes is a literal that holds the fragments of the text.
theorem compile_quoted (h : Opens start atom) (hcs : '"' ∉ cs) :
    ∃ literal, compile (String.ofList (start ++ cs ++ ['"'])) = .ok [.item (.atom (atom literal))] ∧
      start ++ literal.toList ++ ['"'] = [' '].intercalate (fragments (start ++ cs ++ ['"'])) := by
  have htokens := tokens_quoted h.start_eq hcs
  have hprefix := prefix_intercalate_fragments h.start_eq (cs ++ ['"'])
  rw [← List.append_assoc] at hprefix
  generalize [' '].intercalate (fragments (start ++ cs ++ ['"'])) = text at htokens hprefix ⊢
  obtain ⟨rest, rfl⟩ := hprefix
  have hbegins : beginsLiteral (String.ofList (start ++ rest)).toList = true := by
    rw [String.toList_ofList]
    exact beginsLiteral_start_append h.start_eq rest
  rw [ofText_of_beginsLiteral hbegins] at htokens
  have hstarts : start <+: (String.ofList (start ++ rest)).toList := by simp
  obtain ⟨literal, hliteral⟩ := h.exists_ofText_eq hstarts
  have hclosed := (isLegible_of_mem_tokens htokens _ List.mem_cons_self).closed
  have htext := Item.text_ofText hclosed
  rw [Token.text, hliteral] at htext
  refine ⟨literal, ?_, ?_⟩
  · have hread : readItem (String.ofList (start ++ rest)) = .ok (.item (.ofText _), none) :=
      if_pos hbegins
    rw [compile_of_readItem htokens hread, hliteral]
    rfl
  · rw [← h.text_eq, ← Item.text, htext, String.toList_ofList]

end Compiling

end HeadPercolation.Pattern
