import HeadPercolation.Proofs.Pattern.Literals
import HeadPercolation.Proofs.Pattern.Steps

namespace HeadPercolation.Pattern

variable {w cs : List Char} {c : Char} {pattern text : String} {core : Term}
  {terms : List Term} {ts : List Token}

-- A word that is not cut.
structure IsUncut (w : List Char) : Prop extends IsSolid w where
  not_holdsSign : ¬HoldsSign w

instance (w : List Char) : Decidable (IsUncut w) :=
  decidable_of_iff (IsSolid w ∧ ¬HoldsSign w) ⟨fun h => ⟨h.1, h.2⟩, fun h => ⟨h.1, h.2⟩⟩

section Fragments

theorem IsUncut.fragments_eq (h : IsUncut w) : fragments w = [w] :=
  h.fragments_eq_singleton (h.length_fragments_eq_one_iff.mpr (Or.inl h.not_holdsSign))

theorem IsUncut.cons (h : IsUncut w) (hblank : Text.isBlank c = false) (hsign : c ∉ signs) :
    IsUncut (c :: w) where
  ne_nil := List.cons_ne_nil c w
  not_blank := List.forall_mem_cons.mpr ⟨hblank, h.not_blank⟩
  not_holdsSign := by
    rw [holdsSign_cons, not_or]
    exact ⟨hsign, h.not_holdsSign⟩

-- A word behind a sign is a fragment of its own.
theorem fragments_append_sign (hblank : Text.isBlank c = false) (hsign : c ∈ signs)
    (front back : List Char) :
    fragments (front ++ c :: back) = fragments front ++ [c] :: fragments back := by
  rw [fragments_append_cons (by simpa using Or.inr hsign), fragments, if_neg (by simp [hblank]),
    if_pos (by simpa using Or.inl hsign)]

-- The last character belongs to the last fragment, and so does a word that follows, unless a sign
-- parts them.
theorem exists_fragments_concat (hblank : Text.isBlank c = false) (cs : List Char) :
    ∃ fs f, fragments (cs ++ [c]) = fs ++ [f ++ [c]] ∧
      (c ∉ signs → ∀ w, IsUncut w → fragments (cs ++ c :: w) = fs ++ [f ++ c :: w]) := by
  by_cases hsign : c ∈ signs
  · exact ⟨fragments cs, [], fragments_append_sign hblank hsign cs [], absurd hsign⟩
  · simp only [hsign, not_false_eq_true, forall_const]
    induction cs with
    | nil =>
        refine ⟨[], [], ?_, fun w hw => (hw.cons hblank hsign).fragments_eq⟩
        simp [fragments, hblank]
    | cons d cs ih =>
        obtain ⟨fs, f, hfragments, hnext⟩ := ih
        have hhead (w : List Char) :
            (cs ++ c :: w).head?.all (fun e => Text.isBlank e || signs.contains e) =
              (cs ++ [c]).head?.all (fun e => Text.isBlank e || signs.contains e) := by
          cases cs <;> rfl
        by_cases hd : Text.isBlank d = true
        · simp only [List.cons_append, fragments, if_pos hd]
          exact ⟨fs, f, hfragments, hnext⟩
        · by_cases halone : (signs.contains d ||
              (cs ++ [c]).head?.all (fun e => Text.isBlank e || signs.contains e)) = true
          · simp only [List.cons_append, fragments, hhead, if_neg hd, if_pos halone, hfragments]
            exact ⟨[d] :: fs, f, rfl, fun w hw => by rw [hnext w hw]; rfl⟩
          · rw [Bool.not_eq_true] at hd
            have hjoin (w run : List Char) (rest : List (List Char))
                (h : fragments (cs ++ c :: w) = run :: rest) :
                fragments (d :: (cs ++ c :: w)) = (d :: run) :: rest :=
              fragments_cons_of_not_alone hd (by rwa [hhead]) h
            cases fs with
            | nil =>
                exact ⟨[], d :: f, hjoin [] _ _ hfragments, fun w hw => hjoin w _ _ (hnext w hw)⟩
            | cons g fs =>
                exact ⟨(d :: g) :: fs, f, hjoin [] _ _ hfragments,
                  fun w hw => hjoin w _ _ (hnext w hw)⟩

end Fragments

section Tokens

theorem ofText_of_not_holdsSign (h : ¬HoldsSign text.toList) : Token.ofText text = .item text := by
  unfold Token.ofText
  split <;> first | rfl | exact absurd (by decide) h

theorem tokensFrom_of_forall {fs : List (List Char)} (h : ∀ f ∈ fs, beginsLiteral f = false) :
    tokensFrom none fs = .ok (fs.map fun f => Token.ofText (String.ofList f)) := by
  induction fs with
  | nil => rfl
  | cons f fs ih =>
      obtain ⟨hf, hfs⟩ := List.forall_mem_cons.mp h
      rw [tokensFrom_cons, joined, hf, ih hfs]
      rfl

theorem IsUncut.tokens_eq (h : IsUncut text.toList) (hliteral : beginsLiteral text.toList = false) :
    tokens text = .ok [.item text] := by
  rw [tokens, h.fragments_eq, tokensFrom_of_forall (by simpa using hliteral), List.map_singleton,
    String.ofList_toList, ofText_of_not_holdsSign h.not_holdsSign]

theorem tokensFrom_concat {begun : Option (List Char)} {fs : List (List Char)} {f : List Char}
    (h : tokensFrom begun (fs ++ [f]) = .ok ts) :
    ∃ front start, ts = front ++ [Token.ofText (String.ofList (start ++ f))] := by
  induction fs generalizing begun ts with
  | nil =>
      rw [List.nil_append, tokensFrom_cons] at h
      split at h
      · cases h
      · cases h
        cases begun with
        | none => exact ⟨[], [], rfl⟩
        | some start => exact ⟨[], start ++ [' '], by simp [joined]⟩
  | cons g fs ih =>
      rw [List.cons_append, tokensFrom_cons] at h
      split at h
      · exact ih h
      · obtain ⟨rest, hrest, rfl⟩ := map_eq_ok.mp h
        obtain ⟨front, start, rfl⟩ := ih hrest
        exact ⟨_ :: front, start, rfl⟩

-- The last token ends as the pattern does.
theorem getLast?_tokens (h : tokens pattern = .ok ts) (hlast : pattern.toList.getLast? = some c)
    (hblank : Text.isBlank c = false) :
    ∃ t, ts.getLast? = some t ∧ t.text.toList.getLast? = some c := by
  obtain ⟨cs, hcs⟩ := List.getLast?_eq_some_iff.mp hlast
  obtain ⟨fs, f, hfragments, -⟩ := exists_fragments_concat hblank cs
  rw [tokens, hcs, hfragments] at h
  obtain ⟨front, start, rfl⟩ := tokensFrom_concat h
  refine ⟨_, List.getLast?_concat, ?_⟩
  rw [Token.text_ofText, String.toList_ofList, ← List.append_assoc, List.getLast?_concat]

end Tokens

section Reading

theorem readItem_of_notMem (hliteral : beginsLiteral text.toList = false)
    (hname : '=' ∉ text.toList) : readItem text = .ok (.item (.ofText text), none) := by
  rw [readItem, hliteral, Text.cutAt_eq_none_iff.mpr hname]
  rfl

-- An item without a name is the whole text, which is a literal or has no equals sign.
theorem readItem_eq_ok_none (h : readItem text = .ok (core, none)) :
    core = .item (.ofText text) ∧ (beginsLiteral text.toList = true ∨ '=' ∉ text.toList) := by
  unfold readItem at h
  split at h
  · rename_i hliteral
    cases h
    exact ⟨rfl, Or.inl hliteral⟩
  · split at h
    · rename_i hname
      cases h
      exact ⟨rfl, Or.inr (Text.cutAt_eq_none_iff.mp hname)⟩
    · split at h <;> cases h

theorem IsUncut.compile_eq (h : IsUncut text.toList) (hliteral : beginsLiteral text.toList = false)
    (hname : '=' ∉ text.toList) : compile text = .ok [.item (.ofText text)] :=
  compile_of_readItem (h.tokens_eq hliteral) (readItem_of_notMem hliteral hname)

-- A reserved sign by itself is no pattern.
theorem exists_compile_sign {t : Token} (h : ∀ text, t ≠ .item text) :
    ∃ error, compile t.text = .error error := by
  cases t with
  | opening bracket =>
      exact ⟨.mismatched (.opening bracket), by cases bracket <;> decide +kernel⟩
  | closing bracket =>
      exact ⟨.mismatched (.closing bracket), by cases bracket <;> decide +kernel⟩
  | bar => exact ⟨.spurious .bar, by decide +kernel⟩
  | arrow => exact ⟨.spurious .arrow, by decide +kernel⟩
  | negation => exact ⟨.missingItem, by decide +kernel⟩
  | repetition times => exact ⟨.spurious (.repetition times), by cases times <;> decide +kernel⟩
  | finish => exact ⟨.spurious .finish, by decide +kernel⟩
  | item text => exact absurd rfl (h text)

theorem ofText_of_compile (h : compile text = .ok terms) : Token.ofText text = .item text := by
  have htext := Token.text_ofText text
  by_cases hitem : ∃ text', Token.ofText text = .item text'
  · obtain ⟨text', hitem⟩ := hitem
    rw [hitem] at htext ⊢
    exact congrArg Token.item htext
  · obtain ⟨error, herror⟩ := exists_compile_sign (not_exists.mp hitem)
    rw [htext, h] at herror
    cases herror

end Reading

section Macros

variable {context : Context} {macroName : String} {term : Term}

-- The name of a macro that is one item behind a percent sign.
def IsMacroName (macroName : String) : Prop :=
  ∀ c ∈ macroName.toList, Text.isBlank c = false ∧ c ∉ signs ∧ c ≠ '='

instance (macroName : String) : Decidable (IsMacroName macroName) :=
  decidable_of_iff
    (macroName.toList.all (fun c => !Text.isBlank c && !signs.contains c && c != '=') = true)
    (by simp [IsMacroName, and_assoc])

theorem IsMacroName.compile_eq (h : IsMacroName macroName) :
    compile ("%" ++ macroName) = .ok [.item (.named macroName)] := by
  have htext : ("%" ++ macroName).toList = '%' :: macroName.toList := by simp
  have huncut : IsUncut ("%" ++ macroName).toList := by
    rw [htext]
    have hblank : ∀ c ∈ '%' :: macroName.toList, Text.isBlank c = false :=
      List.forall_mem_cons.mpr ⟨by decide, fun c hc => (h c hc).1⟩
    refine ⟨⟨List.cons_ne_nil '%' macroName.toList, hblank⟩, ?_⟩
    rw [holdsSign_cons, not_or]
    exact ⟨by decide, fun ⟨c, hc, hsign⟩ => (h c hc).2.1 hsign⟩
  have hname : '=' ∉ ("%" ++ macroName).toList := by
    rw [htext, List.mem_cons, not_or]
    exact ⟨by decide, fun hmem => (h '=' hmem).2.2 rfl⟩
  have hitem : Item.ofText ("%" ++ macroName) = .named macroName := by
    simp [Item.ofText, Text.startsWith]
  rw [huncut.compile_eq (by rw [htext]; rfl) hname, hitem]

theorem matchCaptures_named (hcompile : compile pattern = .ok [.item (.named macroName)])
    (hcontext : context macroName = some (.constant (.text text)))
    (htext : Token.ofText text = .item text) (n : Node) :
    matchCaptures context pattern n =
      .ok (if (Atom.ofText text).holds n.tree then some [] else none) := by
  apply matchCaptures_of_runSet hcompile
  rw [runSet_single]
  simp only [Term.run, Item.holds, hcontext, Macro.holds, Answer.holds, Answer.atom, htext]
  rfl

theorem eq_ofText_of_compile {atom : Atom} (hcompile : compile text = .ok [.item (.atom atom)])
    (htokens : tokens text = .ok [.item text]) : atom = .ofText text := by
  obtain ⟨g, hparse, hcore⟩ := exists_group_of_compile hcompile trivial
  cases (parse_of_tokens_item htokens).symm.trans hparse
  have hread : readItem text = .ok (.item (.atom atom), none) := hcore
  have hitem := Term.item.inj (readItem_eq_ok_none hread).1
  unfold Item.ofText at hitem
  split at hitem
  · cases hitem
  · exact Item.atom.inj hitem

-- The text of a macro counts as a single item, whatever it is as a pattern. The two agree if the
-- pattern is an item and is written as its token is, without white space around it.
theorem matchCaptures_macro (hcompile : compile text = .ok [term])
    (hname : IsMacroName macroName)
    (hcontext : context macroName = some (.constant (.text text))) (n : Node) :
    matchCaptures context ("%" ++ macroName) n =
        .ok (if (Atom.ofText text).holds n.tree then some [] else none) ∧
      ((∃ atom, term = .item (.atom atom)) → tokens text = .ok [.item text] → ∀ context',
        matchCaptures context ("%" ++ macroName) n = matchCaptures context' text n) := by
  have hmatch := matchCaptures_named hname.compile_eq hcontext (ofText_of_compile hcompile) n
  refine ⟨hmatch, ?_⟩
  rintro ⟨atom, rfl⟩ htokens context'
  rw [hmatch, matchCaptures_atom hcompile, eq_ofText_of_compile hcompile htokens]

theorem matchCaptures_macro_subject :
    let context : Context := fun name =>
      if name = "subject" then some (.constant (.text "NP-SBJ")) else none
    let n : Node := .root (.node "NP-SBJ-1" [.node "NN" [.leaf "dog"]])
    compile "NP-SBJ" = .ok [.item (.atom (.tag "NP-SBJ"))] ∧ IsMacroName "subject" ∧
      tokens "NP-SBJ" = .ok [.item "NP-SBJ"] ∧
      matchCaptures context "%subject" n = .ok (some []) ∧
      ∀ context', matchCaptures context "%subject" n = matchCaptures context' "NP-SBJ" n := by
  intro context n
  have hcompile : compile "NP-SBJ" = .ok [.item (.atom (.tag "NP-SBJ"))] := by decide +kernel
  have hname : IsMacroName "subject" := by decide +kernel
  have htokens : tokens "NP-SBJ" = .ok [.item "NP-SBJ"] :=
    IsUncut.tokens_eq (by decide +kernel) (by decide +kernel)
  have hholds : (Atom.ofText "NP-SBJ").holds n.tree = true := by decide +kernel
  have hcontext : context "subject" = some (.constant (.text "NP-SBJ")) := rfl
  obtain ⟨hmatch, hsame⟩ := matchCaptures_macro hcompile hname hcontext n
  rw [hholds] at hmatch
  exact ⟨hcompile, hname, htokens, hmatch, hsame ⟨_, rfl⟩ htokens⟩

-- Alternatives are no label, so that a macro for them holds of no node with one of their labels.
theorem matchCaptures_macro_choice :
    let context : Context := fun name =>
      if name = "phrase" then some (.constant (.text "( NP | VP )")) else none
    let n : Node := .root (.node "NP" [.node "NN" [.leaf "dog"]])
    (∃ term, compile "( NP | VP )" = .ok [term] ∧ term.macros = []) ∧
      matchCaptures context "( NP | VP )" n = .ok (some []) ∧
      matchCaptures context "%phrase" n = .ok none := by
  intro context n
  have hcompile : compile "( NP | VP )" =
      .ok [.anyOf [.item (.atom (.tag "NP")), .item (.atom (.tag "VP"))]] := by decide +kernel
  have hmacro : compile "%phrase" = .ok [.item (.named "phrase")] := by decide +kernel
  have hholds : (Atom.ofText "( NP | VP )").holds n.tree = false := by decide +kernel
  refine ⟨⟨_, hcompile, rfl⟩, ?_, ?_⟩
  · apply matchCaptures_of_runSet hcompile
    rw [runSet_single]
    have hfirst : (Atom.tag "NP").holds n.tree = true := by decide +kernel
    simp only [Term.run, runAnyOf, Item.holds, hfirst]
    rfl
  · have hcontext : context "phrase" = some (.constant (.text "( NP | VP )")) := rfl
    rw [matchCaptures_named hmacro hcontext (by decide +kernel), hholds]
    rfl

end Macros

end HeadPercolation.Pattern
