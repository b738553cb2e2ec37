import HeadPercolation.Proofs.Pattern.Items

namespace HeadPercolation.Pattern

variable {pattern text name : String} {term : Term} {g : Group} {ts : List Token}
  {begun : Option (List Char)} {fs : List (List Char)} {f w cs : List Char} {c : Char}

section Cutting

-- Behind a blank or a sign, what follows is cut by itself.
theorem fragments_concat_append (h : (Text.isBlank c || signs.contains c) = true)
    (cs w : List Char) :
    fragments (cs ++ [c] ++ w) = fragments (cs ++ [c]) ++ fragments w := by
  have hlast : fragments (c :: w) = fragments [c] ++ fragments w := by
    cases hblank : Text.isBlank c with
    | true => simp [fragments, hblank]
    | false =>
        have hsign : signs.contains c = true := by simpa [hblank] using h
        rw [fragments, fragments, hblank, hsign]
        rfl
  rw [List.append_assoc, List.singleton_append, fragments_append_cons h, fragments_append_cons h,
    hlast, List.append_assoc]

-- Tokens that are no literals are the fragments.
theorem eq_map_of_tokensFrom (hbegun : ∀ start, begun = some start → beginsLiteral start = true)
    (h : tokensFrom begun fs = .ok ts) (hts : ∀ t ∈ ts, beginsLiteral t.text.toList = false) :
    begun = none ∧ ts = fs.map fun f => Token.ofText (String.ofList f) := by
  induction fs generalizing begun ts with
  | nil =>
      cases begun with
      | none =>
          cases h
          exact ⟨rfl, rfl⟩
      | some start => cases h
  | cons f fs ih =>
      rw [tokensFrom_cons] at h
      split at h
      · rename_i hopen
        rw [Bool.and_eq_true] at hopen
        have hnone := (ih (by simpa using hopen.1) h hts).1
        cases hnone
      · obtain ⟨rest, hrest, rfl⟩ := map_eq_ok.mp h
        obtain ⟨hfirst, hothers⟩ := List.forall_mem_cons.mp hts
        rw [Token.text_ofText, String.toList_ofList] at hfirst
        obtain ⟨-, rfl⟩ := ih (by simp) hrest hothers
        cases begun with
        | none => exact ⟨rfl, rfl⟩
        | some start =>
            have hbegins := beginsLiteral_append (hbegun start rfl) (' ' :: f)
            cases hbegins.symm.trans hfirst

theorem fragments_eq_of_tokens (h : tokens pattern = .ok [.item text])
    (hliteral : beginsLiteral text.toList = false) :
    fragments pattern.toList = [text.toList] ∧ Token.ofText text = .item text := by
  have htokens := (eq_map_of_tokensFrom (by simp) h (by simpa [Token.text] using hliteral)).2
  obtain ⟨f, hf, hitem⟩ := List.map_eq_singleton_iff.mp htokens.symm
  have htext := congrArg Token.text hitem
  rw [Token.text_ofText, Token.text] at htext
  rw [htext] at hitem
  exact ⟨by rw [hf, ← htext, String.toList_ofList], hitem⟩

-- A literal that goes on behind its closing quote is not closed.
theorem tokensFrom_unclosed (h : tokensFrom begun (fs ++ [f]) = .ok [.item text])
    (hliteral : beginsLiteral text.toList = true) (hw : '"' ∉ w) (hne : w ≠ []) :
    tokensFrom begun (fs ++ [f ++ w]) = .error .unclosedLiteral := by
  induction fs generalizing begun with
  | nil =>
      rw [List.nil_append, tokensFrom_cons] at h
      rw [List.nil_append, tokensFrom_cons]
      split at h
      · cases h
      · obtain ⟨rest, -, hitem⟩ := map_eq_ok.mp h
        have htext := congrArg Token.text (List.cons.inj hitem).1
        rw [Token.text_ofText, Token.text] at htext
        rw [← htext, String.toList_ofList] at hliteral
        have hjoined : joined begun (f ++ w) = joined begun f ++ w := by
          cases begun <;> simp [joined]
        rw [hjoined, beginsLiteral_append hliteral, endsLiteral_eq_false hw hne]
        rfl
  | cons g fs ih =>
      rw [List.cons_append, tokensFrom_cons] at h
      rw [List.cons_append, tokensFrom_cons]
      split at h
      · rename_i hopen
        rw [if_pos hopen]
        exact ih h
      · obtain ⟨rest, hrest, hitem⟩ := map_eq_ok.mp h
        obtain ⟨front, start, rfl⟩ := tokensFrom_concat hrest
        simp at hitem

end Cutting

-- A name that goes on behind an equals sign up to the end of a pattern.
structure IsName (name : String) : Prop where
  isUncut : IsUncut name.toList
  not_quoted : '"' ∉ name.toList

instance (name : String) : Decidable (IsName name) :=
  decidable_of_iff (IsUncut name.toList ∧ '"' ∉ name.toList)
    ⟨fun h => ⟨h.1, h.2⟩, fun h => ⟨h.1, h.2⟩⟩

section Names

theorem toList_equals_append (name : String) : ("=" ++ name).toList = '=' :: name.toList := by
  simp

theorem IsName.isUncut_equals (h : IsName name) : IsUncut ("=" ++ name).toList := by
  rw [toList_equals_append]
  exact h.isUncut.cons (by decide) (by decide)

theorem IsName.not_quoted_equals (h : IsName name) : '"' ∉ ("=" ++ name).toList := by
  rw [toList_equals_append, List.mem_cons, not_or]
  exact ⟨by decide, h.not_quoted⟩

theorem IsName.tokens_equals (h : IsName name) :
    tokens ("=" ++ name) = .ok [.item ("=" ++ name)] :=
  h.isUncut_equals.tokens_eq (by rw [toList_equals_append]; rfl)

-- A name needs an item before it.
theorem readItem_equals (name : String) :
    readItem ("=" ++ name) = .error (.malformedCapture ("=" ++ name)) := by
  rw [readItem, toList_equals_append]
  rfl

theorem beginsLiteral_append_equals (h : beginsLiteral cs = false) (hne : cs ≠ [])
    (ds : List Char) : beginsLiteral (cs ++ '=' :: ds) = false := by
  cases cs with
  | nil => exact absurd rfl hne
  | cons c cs => cases cs <;> simpa [beginsLiteral, List.isPrefixOf] using h

theorem IsName.readItem_eq (h : IsName name) (hliteral : beginsLiteral text.toList = false)
    (htext : '=' ∉ text.toList) (hne : text.toList ≠ []) :
    readItem (text ++ "=" ++ name) = .ok (.item (.ofText text), some name) := by
  have hwhole : (text ++ "=" ++ name).toList = text.toList ++ '=' :: name.toList := by simp
  rw [readItem, hwhole, beginsLiteral_append_equals hliteral hne, Text.cutAt_append htext]
  simp [hne, h.isUncut.ne_nil]

end Names

section Refusals

-- Why a name behind the text of a bare term is refused, if it is.
def Term.refusal (name : String) : Term → Option FormError
  | .item (.atom .any) => some (.malformedCapture ("=" ++ name))
  | .item (.atom (.leaf _)) => some .unclosedLiteral
  | .item (.atom (.words _)) => some .unclosedLiteral
  | .anyOf _ => some (.malformedCapture ("=" ++ name))
  | _ => none

theorem refusal_of_beginsLiteral (h : beginsLiteral text.toList = true) (name : String) :
    (Term.item (.ofText text)).refusal name = some .unclosedLiteral := by
  rw [beginsLiteral, Bool.or_eq_true, List.isPrefixOf_iff_prefix, List.isPrefixOf_iff_prefix] at h
  rcases h with hwords | hleaf
  · obtain ⟨literal, hliteral⟩ := Opens.words.exists_ofText_eq hwords
    rw [hliteral]
    rfl
  · obtain ⟨literal, hliteral⟩ := Opens.leaf.exists_ofText_eq hleaf
    rw [hliteral]
    rfl

theorem refusal_eq_none (hliteral : beginsLiteral text.toList = false) (hany : text ≠ ".")
    (name : String) : (Term.item (.ofText text)).refusal name = none := by
  rw [beginsLiteral, Bool.or_eq_false_iff] at hliteral
  have hleaf : Text.startsWith "@\"" text = false := hliteral.2
  have hwords : Text.startsWith "\"" text = false := hliteral.1
  unfold Item.ofText
  split
  · rfl
  · simp [Atom.ofText, hany, hleaf, hwords, Term.refusal]

end Refusals

section Compiling

variable {core : Term} {name' : Option String}

theorem exists_tokensOfAlternatives (alternatives : List (List Group)) :
    ∃ front, tokensOfAlternatives alternatives = front ++ [.closing .round] := by
  have hrest (rest : List (List Group)) :
      ∃ front, tokensOfRest rest = front ++ [.closing .round] := by
    induction rest with
    | nil => exact ⟨[], rfl⟩
    | cons alternative rest ih =>
        obtain ⟨front, hfront⟩ := ih
        exact ⟨_, by rw [tokensOfRest, hfront, ← List.append_assoc]⟩
  cases alternatives with
  | nil => exact ⟨[], rfl⟩
  | cons alternative rest =>
      obtain ⟨front, hfront⟩ := hrest rest
      exact ⟨_, by rw [tokensOfAlternatives, hfront, ← List.append_assoc]⟩

-- The tokens of a bare term are one item, or they end with a bracket.
theorem tokens_of_readCore (hparse : parse pattern = .ok [g])
    (hcore : readCore g.element = .ok (term, none)) :
    (∃ text, tokens pattern = .ok [.item text] ∧ term = .item (.ofText text) ∧
        (beginsLiteral text.toList = true ∨ '=' ∉ text.toList)) ∨
      ∃ front alternatives, tokens pattern = .ok (front ++ [.closing .round]) ∧
        term = .anyOf alternatives := by
  obtain ⟨ts, htokens, hgroups⟩ := bind_eq_ok.mp hparse
  rw [htokens, ← (nests_of_groups hgroups).tokens_eq, tokensOfEach_singleton]
  cases g with
  | token t =>
      cases t with
      | item text =>
          have hread : readItem text = .ok (term, none) := hcore
          exact Or.inl ⟨text, rfl, readItem_eq_ok_none hread⟩
      | _ => cases hcore
  | choice alternatives =>
      obtain ⟨terms, -, hterms⟩ := map_eq_ok.mp hcore
      cases hterms
      obtain ⟨front, hfront⟩ := exists_tokensOfAlternatives alternatives
      rw [Group.tokens, hfront]
      exact Or.inr ⟨.opening .round :: front, terms, rfl, rfl⟩
  | _ => cases hcore

theorem step_of_readItem_eq_error {error : FormError} {s : State} {before : List Term}
    (h : readItem text = .error error) (place : Place) (hs : s.Ends before) :
    step place s (.token (.item text)) = .error error := by
  have hstart (done : List Term) : start place done false (.token (.item text)) = .error error := by
    rw [start, readCore, h]
    · rfl
    · simp
  obtain ⟨done, stage⟩ := s
  cases stage <;> cases hs <;> exact hstart _

-- A name that is cut off is read as an item of its own.
theorem IsName.compile_eq_error (h : IsName name) (hparse : parse pattern = .ok [g])
    (hcore : readCore g.element = .ok (core, name'))
    (hcut : fragments (pattern ++ "=" ++ name).toList =
      fragments pattern.toList ++ fragments ("=" ++ name).toList) :
    compile (pattern ++ "=" ++ name) = .error (.malformedCapture ("=" ++ name)) := by
  obtain ⟨ts, htokens, hgroups⟩ := bind_eq_ok.mp hparse
  have hname : tokensFrom none (fragments ("=" ++ name).toList) = .ok [.item ("=" ++ name)] :=
    h.tokens_equals
  have hwhole : tokens (pattern ++ "=" ++ name) = .ok (ts ++ [.item ("=" ++ name)]) := by
    rw [tokens, hcut, tokensFrom_append htokens, hname]
    rfl
  have hsecond : State.after .set ⟨[], .afterItem ⟨false, core, name'⟩⟩
      [.token (.item ("=" ++ name))] = .error (.malformedCapture ("=" ++ name)) :=
    bind_eq_error.mpr (Or.inl (step_of_readItem_eq_error (readItem_equals name) .set rfl))
  have hread : readTerms .set (elementsOf ([g] ++ [.token (.item ("=" ++ name))])) =
      .error (.malformedCapture ("=" ++ name)) :=
    bind_eq_error.mpr (Or.inl ((State.after_append (after_of_readCore hcore .set) _).trans hsecond))
  rw [compile, parse, bind_of_eq_ok hwhole, bind_of_eq_ok (groups_append hgroups (groups_item _)),
    termsOf, hread]
  rfl

-- The token that is a sign and an item is the wildcard.
theorem eq_of_ofText_mem_signs (hsign : c ∈ signs)
    (h : Token.ofText (String.ofList [c]) = .item text) : text = "." := by
  simp only [signs, List.mem_cons, List.not_mem_nil, or_false] at hsign
  rcases hsign with rfl | rfl | rfl | rfl | rfl | rfl | rfl | rfl | rfl | rfl | rfl | rfl | rfl |
    rfl <;> cases h
  rfl

theorem ofText_of_equals_mem (h : '=' ∈ text.toList) : Token.ofText text = .item text := by
  unfold Token.ofText
  split <;> first | rfl | exact absurd h (by decide)

-- Only the wildcard and brackets end with a sign.
theorem refusal_of_sign (hparse : parse pattern = .ok [g])
    (hcore : readCore g.element = .ok (term, none)) (hlast : pattern.toList = cs ++ [c])
    (hblank : Text.isBlank c = false) (hsign : c ∈ signs) (name : String) :
    term.refusal name = some (.malformedCapture ("=" ++ name)) := by
  rcases tokens_of_readCore hparse hcore with
    ⟨text, htokens, rfl, -⟩ | ⟨front, alternatives, -, rfl⟩
  · cases hliteral : beginsLiteral text.toList with
    | true =>
        have hends := (isLegible_of_mem_tokens htokens _ List.mem_cons_self).closed hliteral
        rw [endsLiteral, Bool.and_eq_true, beq_iff_eq] at hends
        obtain ⟨t, ht, hc⟩ := getLast?_tokens htokens (by rw [hlast, List.getLast?_concat]) hblank
        cases ht
        cases hends.2.symm.trans hc
        exact absurd hsign (by decide)
    | false =>
        obtain ⟨hfragments, hitem⟩ := fragments_eq_of_tokens htokens hliteral
        rw [hlast, fragments_append_sign hblank hsign cs []] at hfragments
        have htext := (List.append_inj' (hfragments.trans (List.nil_append _).symm) rfl).2
        rw [fragments, List.cons.injEq] at htext
        rw [← String.ofList_toList (s := text), ← htext.1] at hitem ⊢
        rw [eq_of_ofText_mem_signs hsign hitem]
        rfl
  · rfl

-- Behind any other character, the name belongs to the last token.
theorem IsName.tokens_joined (h : IsName name) (htokens : tokens pattern = .ok [.item text])
    (hlast : pattern.toList = cs ++ [c]) (hblank : Text.isBlank c = false) (hsign : c ∉ signs) :
    tokens (pattern ++ "=" ++ name) = if beginsLiteral text.toList then .error .unclosedLiteral
      else .ok [.item (text ++ "=" ++ name)] := by
  obtain ⟨fs, f, hfragments, hjoined⟩ := exists_fragments_concat hblank cs
  have hwhole : fragments (pattern ++ "=" ++ name).toList =
      fs ++ [f ++ [c] ++ ("=" ++ name).toList] := by
    simpa [hlast] using hjoined hsign _ h.isUncut_equals
  rw [tokens, hwhole]
  split
  · rename_i hliteral
    rw [tokens, hlast, hfragments] at htokens
    exact tokensFrom_unclosed htokens hliteral h.not_quoted_equals h.isUncut_equals.ne_nil
  · rename_i hliteral
    rw [Bool.not_eq_true] at hliteral
    have hone := (fragments_eq_of_tokens htokens hliteral).1
    rw [hlast, hfragments] at hone
    obtain ⟨rfl, hsingle⟩ := List.append_inj' (hone.trans (List.nil_append _).symm) rfl
    have htext : f ++ [c] = text.toList := (List.cons.inj hsingle).1
    have hne : text.toList ≠ [] := by
      rw [← htext]
      exact List.append_ne_nil_of_right_ne_nil f (List.cons_ne_nil c [])
    have hitem : String.ofList (text.toList ++ ("=" ++ name).toList) = text ++ "=" ++ name :=
      String.toList_inj.mp (by simp)
    have hliteral' := beginsLiteral_append_equals hliteral hne name.toList
    rw [htext, List.nil_append, tokensFrom_of_forall (by simpa using hliteral'), List.map_singleton,
      hitem, ofText_of_equals_mem (by simp)]

theorem IsName.compile_joined (h : IsName name) (hparse : parse pattern = .ok [g])
    (hcore : readCore g.element = .ok (term, none)) (hlast : pattern.toList = cs ++ [c])
    (hblank : Text.isBlank c = false) (hsign : c ∉ signs) :
    compile (pattern ++ "=" ++ name) = match term.refusal name with
      | some error => .error error
      | none => .ok [.capture term name] := by
  have hgetLast : pattern.toList.getLast? = some c := by rw [hlast, List.getLast?_concat]
  rcases tokens_of_readCore hparse hcore with
    ⟨text, htokens, rfl, htext⟩ | ⟨front, alternatives, htokens, rfl⟩
  · have hjoined := h.tokens_joined htokens hlast hblank hsign
    obtain ⟨t, ht, hc⟩ := getLast?_tokens htokens hgetLast hblank
    obtain rfl : .item text = t := Option.some.inj ht
    rw [Token.text] at hc
    cases hliteral : beginsLiteral text.toList with
    | true =>
        rw [hliteral, if_pos rfl] at hjoined
        rw [refusal_of_beginsLiteral hliteral, compile, parse, hjoined]
        rfl
    | false =>
        have hequals : '=' ∉ text.toList := htext.resolve_left (by simp [hliteral])
        have hne : text.toList ≠ [] := by
          intro hnil
          rw [hnil] at hc
          cases hc
        have hany : text ≠ "." := by
          rintro rfl
          cases hc
          exact hsign (by decide)
        rw [hliteral, if_neg Bool.false_ne_true] at hjoined
        rw [refusal_eq_none hliteral hany,
          compile_of_readItem hjoined (h.readItem_eq hliteral hequals hne)]
        rfl
  · obtain ⟨t, ht, hc⟩ := getLast?_tokens htokens hgetLast hblank
    rw [List.getLast?_concat] at ht
    cases ht
    cases hc
    exact absurd (by decide) hsign

theorem matchCaptures_capture {pattern' : String} (h : compile pattern = .ok [term])
    (h' : compile pattern' = .ok [.capture term name]) (context : Context) (n : Node) :
    matchCaptures context pattern' n =
      (matchCaptures context pattern n).map (Option.map ((name, n) :: ·)) := by
  rw [matchCaptures, matchCaptures, h, h']
  change (runSet context [.capture term name] [n] []).mapError Error.lookup =
    ((runSet context [term] [n] []).mapError Error.lookup).map (Option.map ((name, n) :: ·))
  rw [runSet_single, runSet_single]
  simp only [Term.run]
  cases term.run context n [] <;> rfl

-- Why a name behind the text of a bare term is refused, if it is. White space cuts it off too.
def refusal (pattern name : String) (term : Term) : Option FormError :=
  if pattern.toList.getLast?.any Text.isBlank then some (.malformedCapture ("=" ++ name))
  else term.refusal name

-- A label or a macro takes a name, and its match is captured with the node. Nothing else does.
theorem compile_named (hcompile : compile pattern = .ok [term]) (hbare : term.IsBare)
    (hname : IsName name) :
    (∀ error, refusal pattern name term = some error →
        compile (pattern ++ "=" ++ name) = .error error) ∧
      (refusal pattern name term = none →
        compile (pattern ++ "=" ++ name) = .ok [.capture term name] ∧
          ∀ context n, matchCaptures context (pattern ++ "=" ++ name) n =
            (matchCaptures context pattern n).map (Option.map ((name, n) :: ·))) := by
  obtain ⟨g, hparse, hcore⟩ := exists_group_of_compile hcompile hbare
  rcases List.eq_nil_or_concat pattern.toList with hnil | ⟨cs, c, hlast⟩
  · rw [parse, tokens, hnil] at hparse
    change groups [] = .ok [g] at hparse
    rw [groups] at hparse
    cases hparse
  rw [List.concat_eq_append] at hlast
  have hrefusal : refusal pattern name term =
      if Text.isBlank c then some (.malformedCapture ("=" ++ name)) else term.refusal name := by
    rw [refusal, hlast, List.getLast?_concat, Option.any_some]
  by_cases hcut : (Text.isBlank c || signs.contains c) = true
  · have hfragments : fragments (pattern ++ "=" ++ name).toList =
        fragments pattern.toList ++ fragments ("=" ++ name).toList := by
      simpa [hlast] using fragments_concat_append hcut cs ("=" ++ name).toList
    have herror := hname.compile_eq_error hparse hcore hfragments
    have hrefused : refusal pattern name term = some (.malformedCapture ("=" ++ name)) := by
      rw [hrefusal]
      split
      · rfl
      · rename_i hblank
        rw [Bool.not_eq_true] at hblank
        rw [hblank, Bool.false_or, List.contains_iff_mem] at hcut
        exact refusal_of_sign hparse hcore hlast hblank hcut name
    rw [hrefused]
    exact ⟨by rintro error ⟨⟩; exact herror, by rintro ⟨⟩⟩
  · rw [Bool.or_eq_true, not_or, Bool.not_eq_true, List.contains_iff_mem] at hcut
    obtain ⟨hblank, hsign⟩ := hcut
    have hjoined := hname.compile_joined hparse hcore hlast hblank hsign
    rw [hrefusal, hblank, if_neg Bool.false_ne_true]
    constructor
    · intro error herror
      rw [hjoined, herror]
    · intro hnone
      rw [hnone] at hjoined
      exact ⟨hjoined, matchCaptures_capture hcompile hjoined⟩

theorem compile_named_subject :
    let n : Node := .root (.node "NP-SBJ" [.node "NN" [.leaf "dog"]])
    compile "NP-SBJ" = .ok [.item (.atom (.tag "NP-SBJ"))] ∧ IsName "subject" ∧
      compile "NP-SBJ=subject" = .ok [.capture (.item (.atom (.tag "NP-SBJ"))) "subject"] ∧
      ∀ context, matchCaptures context "NP-SBJ=subject" n = .ok (some [("subject", n)]) := by
  intro n
  have hcompile : compile "NP-SBJ" = .ok [.item (.atom (.tag "NP-SBJ"))] := by decide +kernel
  have hname : IsName "subject" := by decide +kernel
  have hholds : (Atom.tag "NP-SBJ").holds n.tree = true := by decide +kernel
  obtain ⟨hcapture, hmatch⟩ := (compile_named hcompile trivial hname).2 (by decide +kernel)
  refine ⟨hcompile, hname, hcapture, fun context => (hmatch context n).trans ?_⟩
  rw [matchCaptures_atom hcompile, hholds]
  rfl

-- Other items compile without a name only.
theorem compile_named_others :
    (∃ term, compile "." = .ok [term] ∧ compile ".=node" = .error (.malformedCapture "=node")) ∧
      (∃ term, compile "\"dog\"" = .ok [term] ∧
        compile "\"dog\"=node" = .error .unclosedLiteral) ∧
      (∃ term, compile "@\"dog\"" = .ok [term] ∧
        compile "@\"dog\"=node" = .error .unclosedLiteral) ∧
      ∃ term, compile "( NP | VP )" = .ok [term] ∧
        compile "( NP | VP )=node" = .error (.malformedCapture "=node") := by
  refine ⟨⟨.item (.atom .any), ?_, ?_⟩, ⟨.item (.atom (.words "dog")), ?_, ?_⟩,
    ⟨.item (.atom (.leaf "dog")), ?_, ?_⟩,
    ⟨.anyOf [.item (.atom (.tag "NP")), .item (.atom (.tag "VP"))], ?_, ?_⟩⟩
  all_goals decide +kernel

end Compiling

end HeadPercolation.Pattern
