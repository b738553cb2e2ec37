import HeadPercolation.Proofs.Pattern.Containment
import HeadPercolation.Proofs.Pattern.Items

namespace HeadPercolation.Pattern

variable {label outer content text : String} {w cs : List Char} {c : Char} {ts : List Token}
  {gs gs' : List Group} {term : Term} {before : List Term}

-- A character that means nothing in a pattern, such as a letter, a digit or a hyphen.
def isLabelChar (c : Char) : Bool :=
  !Text.isBlank c && !signs.contains c && ['=', '"', '@', '%'].all (c != ·)

-- A label of a treebank, in which a dollar sign may stand behind other characters.
structure IsLabel (label : String) : Prop where
  head : ∃ c, label.toList.head? = some c ∧ isLabelChar c = true
  each : ∀ c ∈ label.toList, isLabelChar c = true ∨ c = '$'

instance (label : String) : Decidable (IsLabel label) :=
  decidable_of_iff
    (label.toList.head?.any isLabelChar = true ∧
      label.toList.all (fun c => isLabelChar c || c == '$') = true)
    ⟨fun h => ⟨(Option.any_eq_true _ _).mp h.1, by simpa using h.2⟩,
      fun h => ⟨(Option.any_eq_true _ _).mpr h.head, by simpa using h.each⟩⟩

section Characters

theorem isLabelChar_iff :
    isLabelChar c = true ↔
      Text.isBlank c = false ∧ c ∉ signs ∧ c ≠ '=' ∧ c ≠ '"' ∧ c ≠ '@' ∧ c ≠ '%' := by
  simp [isLabelChar, and_assoc]

theorem isLabelChar_of_isAlpha (h : c.isAlpha = true) : isLabelChar c = true := by
  have hranges : (decide (c.val ≥ 'A'.val ∧ c.val ≤ 'Z'.val) ||
      (decide (c.val ≥ 'a'.val) && decide (c.val ≤ 'z'.val))) = true := h
  simp only [Bool.or_eq_true, Bool.and_eq_true, decide_eq_true_eq, ge_iff_le,
    UInt32.le_iff_toNat_le] at hranges
  change 65 ≤ c.toNat ∧ c.toNat ≤ 90 ∨ 97 ≤ c.toNat ∧ c.toNat ≤ 122 at hranges
  have hletters : ∀ code < 128, (Char.ofNat code).isAlpha = true →
      isLabelChar (Char.ofNat code) = true := by decide +kernel
  have hc := hletters c.toNat (by omega)
  rw [Char.ofNat_toNat] at hc
  exact hc h

theorem IsLabel.of_isAlpha (hhead : label.toList.head?.any Char.isAlpha = true)
    (heach : label.toList.all (fun c => c.isAlpha || c == '$' || c == '-') = true) :
    IsLabel label where
  head := by
    obtain ⟨c, hc, halpha⟩ := (Option.any_eq_true _ _).mp hhead
    exact ⟨c, hc, isLabelChar_of_isAlpha halpha⟩
  each c hc := by
    have hchar := List.all_eq_true.mp heach c hc
    rw [Bool.or_eq_true, Bool.or_eq_true, beq_iff_eq, beq_iff_eq] at hchar
    rcases hchar with (halpha | rfl) | rfl
    · exact Or.inl (isLabelChar_of_isAlpha halpha)
    · exact Or.inr rfl
    · exact Or.inl (by decide)

theorem beginsLiteral_eq_false (h : '"' ∉ cs) : beginsLiteral cs = false := by
  rw [beginsLiteral, Bool.or_eq_false_iff, Bool.eq_false_iff, Bool.eq_false_iff, ne_eq, ne_eq,
    List.isPrefixOf_iff_prefix, List.isPrefixOf_iff_prefix]
  exact ⟨fun hquote => h (hquote.subset (by simp)), fun hquote => h (hquote.subset (by simp))⟩

theorem isUncut_of_forall (hne : w ≠ []) (h : ∀ c ∈ w, isLabelChar c = true) : IsUncut w where
  ne_nil := hne
  not_blank c hc := (isLabelChar_iff.mp (h c hc)).1
  not_holdsSign := fun ⟨c, hc, hsign⟩ => (isLabelChar_iff.mp (h c hc)).2.1 hsign

theorem ofText_of_isLabelChar (hhead : text.toList.head? = some c) (h : isLabelChar c = true) :
    Item.ofText text = .atom (.tag text) := by
  obtain ⟨cs, htext⟩ := List.head?_eq_some_iff.mp hhead
  obtain ⟨-, hsign, -, hquote, hat, hpercent⟩ := isLabelChar_iff.mp h
  have hany : text ≠ "." := by
    rintro rfl
    cases hhead
    exact hsign (by decide)
  simp [Item.ofText, Atom.ofText, Text.startsWith, htext, hany, Ne.symm hquote, Ne.symm hat,
    Ne.symm hpercent]

end Characters

section Parsing

-- Without brackets, each token is a group.
theorem groups_of_forall (h : ∀ t ∈ ts, ∀ bracket, t ≠ .opening bracket ∧ t ≠ .closing bracket) :
    groups ts = .ok (ts.map .token) := by
  induction ts with
  | nil => rw [groups, List.map_nil]
  | cons t ts ih =>
      obtain ⟨ht, hts⟩ := List.forall_mem_cons.mp h
      rw [groups_token (fun bracket => (ht bracket).1) (fun bracket => (ht bracket).2), ih hts]
      rfl

theorem mem_of_mem_fragments {f : List Char} (hf : f ∈ fragments cs) (hc : c ∈ f) : c ∈ cs := by
  have hmem : c ∈ (fragments cs).flatten := List.mem_flatten.mpr ⟨f, hf, hc⟩
  rw [flatten_fragments] at hmem
  exact List.mem_of_mem_filter hmem

theorem IsLabel.ne_bracket (h : IsLabel label) (hf : w ∈ fragments label.toList)
    (bracket : Bracket) :
    Token.ofText (String.ofList w) ≠ .opening bracket ∧
      Token.ofText (String.ofList w) ≠ .closing bracket := by
  have hchars : w.all (fun d => isLabelChar d || d == '$') = true := by
    rw [List.all_eq_true]
    exact fun d hd => by simpa using h.each d (mem_of_mem_fragments hf hd)
  have htext {t : Token} (ht : Token.ofText (String.ofList w) = t) : w = t.text.toList := by
    rw [← ht, Token.text_ofText, String.toList_ofList]
  constructor
  · intro ht
    rw [htext ht] at hchars
    cases bracket <;> exact absurd hchars (by decide)
  · intro ht
    rw [htext ht] at hchars
    cases bracket <;> exact absurd hchars (by decide)

theorem IsLabel.parse_eq (h : IsLabel label) :
    parse label =
      .ok ((fragments label.toList).map fun f => .token (.ofText (String.ofList f))) := by
  have hquote : ∀ f ∈ fragments label.toList, beginsLiteral f = false := fun f hf =>
    beginsLiteral_eq_false fun hmem =>
      absurd (h.each '"' (mem_of_mem_fragments hf hmem)) (by decide)
  have hgroups := groups_of_forall (List.forall_mem_map.mpr fun f hf => h.ne_bracket hf)
  rw [parse, tokens, tokensFrom_of_forall hquote]
  change groups _ = _
  rw [hgroups, List.map_map]
  rfl

-- A label is one token up to its first dollar sign, which is the end mark.
theorem IsLabel.exists_parse (h : IsLabel label) (hmem : '$' ∈ label.toList) :
    ∃ front gs, parse label = .ok (.token (.item front) :: .token .finish :: gs) ∧
      readItem front = .ok (.item (.ofText front), none) := by
  obtain ⟨front, back, hlabel, hfront⟩ := List.eq_append_cons_of_mem hmem
  obtain ⟨first, hfirst, hhead⟩ := h.head
  have hne : front ≠ [] := by
    rintro rfl
    rw [hlabel] at hfirst
    cases hfirst
    exact absurd hhead (by decide)
  have hchars : ∀ c ∈ front, isLabelChar c = true := fun c hc =>
    (h.each c (by simp [hlabel, hc])).resolve_right (ne_of_mem_of_not_mem hc hfront)
  have huncut := isUncut_of_forall hne hchars
  have hitem : Token.ofText (String.ofList front) = .item (String.ofList front) :=
    ofText_of_not_holdsSign (by simpa using huncut.not_holdsSign)
  have hread : readItem (String.ofList front) =
      .ok (.item (.ofText (String.ofList front)), none) := by
    apply readItem_of_notMem
    · rw [String.toList_ofList]
      exact beginsLiteral_eq_false fun hc => absurd (hchars '"' hc) (by decide)
    · rw [String.toList_ofList]
      exact fun hc => absurd (hchars '=' hc) (by decide)
  have hparse := h.parse_eq
  rw [hlabel, fragments_append_sign (by decide) (by decide), huncut.fragments_eq, List.map_append,
    List.map_singleton, List.map_cons, hitem] at hparse
  exact ⟨String.ofList front, _, hparse, hread⟩

-- Without dollar signs, a label is one item.
theorem IsLabel.isUncut (h : IsLabel label) (hmem : '$' ∉ label.toList) : IsUncut label.toList := by
  obtain ⟨first, hfirst, -⟩ := h.head
  refine isUncut_of_forall ?_ fun c hc => (h.each c hc).resolve_right (ne_of_mem_of_not_mem hc hmem)
  intro hnil
  rw [hnil] at hfirst
  cases hfirst

theorem IsLabel.parse_of_notMem (h : IsLabel label) (hmem : '$' ∉ label.toList) :
    parse label = .ok [.token (.item label)] ∧
      readItem label = .ok (.item (.atom (.tag label)), none) := by
  obtain ⟨first, hfirst, hhead⟩ := h.head
  have huncut := h.isUncut hmem
  have hliteral : beginsLiteral label.toList = false :=
    beginsLiteral_eq_false fun hc => absurd (h.each '"' hc) (by decide)
  constructor
  · exact parse_of_tokens_item (huncut.tokens_eq hliteral)
  · rw [← ofText_of_isLabelChar hfirst hhead]
    exact readItem_of_notMem hliteral fun hc => absurd (h.each '=' hc) (by decide)

end Parsing

section Reading

-- The terms of a text that stands in square brackets.
def sequenceOf (text : String) : Except FormError Terms := do
  readTerms .sequence (elementsOf (← parse text))

-- Nothing may follow the end mark.
theorem readTerms_finish_cons (h : readTerms .sequence (elementsOf gs) = .ok ⟨before, false⟩)
    (g : Group) (gs' : List Group) :
    readTerms .sequence (elementsOf (gs ++ .token .finish :: g :: gs')) =
      .error .finishNotLast := by
  obtain ⟨s, hafter, hs⟩ := bind_eq_ok.mp h
  have hfinish := (State.after_append hafter (.token .finish :: g :: gs')).trans
    (State.after_cons (step_finish hs) (g :: gs'))
  exact bind_eq_error.mpr (Or.inl (hfinish.trans rfl))

theorem parse_square (h : parse content = .ok gs) :
    parse ("[" ++ " " ++ content ++ " " ++ "]") = .ok [.sequence gs] := by
  obtain ⟨ts, htokens, hgroups⟩ := bind_eq_ok.mp h
  have hopening : tokens "[" = .ok [.opening .square] :=
    tokens_text (t := .opening .square) (by simp)
  have hclosing : tokens "]" = .ok [.closing .square] :=
    tokens_text (t := .closing .square) (by simp)
  have hnests : Nests (.opening .square :: ts ++ [.closing .square]) [.sequence gs] :=
    .enclosed .square (nests_of_groups hgroups) rfl .nil
  have hgroup := hnests.areFound.groups_eq_ok
  rw [hnests.tokens_eq] at hgroup
  exact (bind_of_eq_ok (tokens_append_space (tokens_append_space hopening htokens) hclosing)).trans
    hgroup

-- A sequence fails with the error of its terms.
theorem compile_square (houter : compile outer = .ok [term]) (hbare : term.IsBare)
    (hcontent : parse content = .ok gs) :
    compile (outer ++ " > [ " ++ content ++ " ]") =
      (readTerms .sequence (elementsOf gs)).map fun terms =>
        [.containing term .children (.sequence terms.anchored) terms.terms] := by
  obtain ⟨g, hparse, hcore⟩ := exists_group_of_compile houter hbare
  obtain ⟨signs, hsigns, hreach⟩ := parse_sign .children ⟨false, term, none⟩
  have htext : outer ++ " > [ " ++ content ++ " ]" =
      outer ++ " " ++ (Reach.children.sign ++ " " ++ ("[" ++ " " ++ content ++ " " ++ "]")) :=
    String.toList_inj.mp (by simp [Reach.sign])
  have hwhole := parse_append_space hparse (parse_append_space hsigns (parse_square hcontent))
  have hread := readTerms_argument (after_of_readCore hcore .set) hreach (.sequence gs)
  rw [htext, compile, bind_of_eq_ok hwhole, termsOf, hread, Group.element]
  cases readTerms .sequence (elementsOf gs) <;> rfl

theorem IsLabel.compile_eq (h : IsLabel label) :
    compile label = if '$' ∈ label.toList then .error (.spurious .finish)
      else .ok [.item (.atom (.tag label))] := by
  split
  · rename_i hmem
    obtain ⟨front, gs, hparse, hread⟩ := h.exists_parse hmem
    have hcore : readCore (Group.token (.item front)).element =
        .ok (.item (.ofText front), none) := hread
    have hitem := State.after_append (after_of_readCore hcore .set) (.token .finish :: gs)
    have hterms : readTerms .set (elementsOf (.token (.item front) :: .token .finish :: gs)) =
        .error (.spurious .finish) := bind_eq_error.mpr (Or.inl (hitem.trans rfl))
    rw [compile, bind_of_eq_ok hparse, termsOf, hterms]
    rfl
  · rename_i hmem
    obtain ⟨hparse, hread⟩ := h.parse_of_notMem hmem
    rw [compile, bind_of_eq_ok hparse, termsOf, readTerms_item hread]
    rfl

-- Between other terms, a label is one of them, unless its dollar sign ends them too early.
theorem IsLabel.readTerms_eq {gsLabel : List Group} {after : Terms} (h : IsLabel label)
    (hlabel : parse label = .ok gsLabel)
    (hfront : readTerms .sequence (elementsOf gs) = .ok ⟨before, false⟩)
    (hback : readTerms .sequence (elementsOf gs') = .ok after) (hne : after.terms ≠ []) :
    readTerms .sequence (elementsOf (gs ++ gsLabel ++ gs')) =
      if '$' ∈ label.toList then .error .finishNotLast
      else .ok ⟨before ++ .item (.atom (.tag label)) :: after.terms, after.anchored⟩ := by
  split
  · rename_i hmem
    obtain ⟨front, rest, hparse, hread⟩ := h.exists_parse hmem
    cases hlabel.symm.trans hparse
    have hitem := readTerms_append hfront (readTerms_item hread .sequence)
    cases gs' with
    | nil =>
        cases hback
        exact absurd rfl hne
    | cons g gs' =>
        have hfollowed := List.append_ne_nil_of_right_ne_nil rest (List.cons_ne_nil g gs')
        obtain ⟨next, others, hnext⟩ := List.exists_cons_of_ne_nil hfollowed
        have hgroups : gs ++ (.token (.item front) :: .token .finish :: rest) ++ g :: gs' =
            gs ++ [.token (.item front)] ++ .token .finish :: next :: others := by
          rw [← hnext]
          simp
        rw [hgroups]
        exact readTerms_finish_cons hitem next others
  · rename_i hmem
    obtain ⟨hparse, hread⟩ := h.parse_of_notMem hmem
    cases hlabel.symm.trans hparse
    have hterms := readTerms_append (readTerms_append hfront (readTerms_item hread .sequence)) hback
    rw [hterms, List.append_assoc]
    rfl

theorem IsLabel.sequenceOf_eq (h : IsLabel label) (hmem : '$' ∉ label.toList) :
    sequenceOf label = .ok ⟨[.item (.atom (.tag label))], false⟩ := by
  obtain ⟨hparse, hread⟩ := h.parse_of_notMem hmem
  exact (bind_of_eq_ok hparse).trans (readTerms_item hread .sequence)

theorem matchCaptures_label {n : Node}
    (h : compile label = .ok [.item (.atom (.tag label))]) (hleaf : n.tree.isLeaf = false)
    (hlabel : n.tree.label = label) (context : Context) :
    matchCaptures context label n = .ok (some []) := by
  have hholds : (Atom.tag label).holds n.tree = true := by
    rw [Atom.holds, Tree.matchesTag, labelMatches, hleaf, hlabel, beq_self_eq_true]
    rfl
  rw [matchCaptures_atom h, if_pos hholds]

-- A label is an item of its own unless it holds a dollar sign. Otherwise it ends a list, which
-- only a sequence may do, and only behind its last item.
theorem compile_label {front back : String} {after : Terms} (hlabel : IsLabel label)
    (houter : compile outer = .ok [term]) (hbare : term.IsBare)
    (hfront : sequenceOf front = .ok ⟨before, false⟩) (hback : sequenceOf back = .ok after)
    (hne : after.terms ≠ []) :
    compile label = (if '$' ∈ label.toList then .error (.spurious .finish)
      else .ok [.item (.atom (.tag label))]) ∧
    compile (outer ++ " > [ " ++ (front ++ " " ++ label ++ " " ++ back) ++ " ]") =
      (if '$' ∈ label.toList then .error .finishNotLast
      else .ok [.containing term .children (.sequence after.anchored)
        (before ++ .item (.atom (.tag label)) :: after.terms)]) ∧
    ∀ context n, n.tree.isLeaf = false → n.tree.label = label →
      matchCaptures context label n = if '$' ∈ label.toList then .error (.form (.spurious .finish))
        else .ok (some []) := by
  obtain ⟨gs, hgs, hfront⟩ := bind_eq_ok.mp hfront
  obtain ⟨gs', hgs', hback⟩ := bind_eq_ok.mp hback
  have hwhole := parse_append_space (parse_append_space hgs hlabel.parse_eq) hgs'
  refine ⟨hlabel.compile_eq, ?_, fun context n hleaf heq => ?_⟩
  · rw [compile_square houter hbare hwhole,
      hlabel.readTerms_eq hlabel.parse_eq hfront hback hne]
    split <;> rfl
  · have hcompile := hlabel.compile_eq
    split
    · rename_i hmem
      rw [if_pos hmem] at hcompile
      exact matchCaptures_of_compile_eq_error hcompile context n
    · rename_i hmem
      rw [if_neg hmem] at hcompile
      exact matchCaptures_label hcompile hleaf heq context

theorem compile_label_subject :
    let n : Node := .root (.node "NP-SBJ" [.node "NN" [.leaf "dog"]])
    IsLabel "NP-SBJ" ∧ compile "S" = .ok [.item (.atom (.tag "S"))] ∧
      sequenceOf "CC" = .ok ⟨[.item (.atom (.tag "CC"))], false⟩ ∧
      sequenceOf "VP" = .ok ⟨[.item (.atom (.tag "VP"))], false⟩ ∧
      compile "NP-SBJ" = .ok [.item (.atom (.tag "NP-SBJ"))] ∧
      compile "S > [ CC NP-SBJ VP ]" = .ok [.containing (.item (.atom (.tag "S"))) .children
        (.sequence false) [.item (.atom (.tag "CC")), .item (.atom (.tag "NP-SBJ")),
          .item (.atom (.tag "VP"))]] ∧
      ∀ context, matchCaptures context "NP-SBJ" n = .ok (some []) := by
  intro n
  have hlabel : IsLabel "NP-SBJ" := .of_isAlpha (by decide) (by decide)
  have houter : compile "S" = .ok [.item (.atom (.tag "S"))] := by decide +kernel
  have hfront : sequenceOf "CC" = .ok ⟨[.item (.atom (.tag "CC"))], false⟩ :=
    IsLabel.sequenceOf_eq (by decide +kernel) (by decide)
  have hback : sequenceOf "VP" = .ok ⟨[.item (.atom (.tag "VP"))], false⟩ :=
    IsLabel.sequenceOf_eq (by decide +kernel) (by decide)
  obtain ⟨hitem, hsequence, hmatch⟩ :=
    compile_label hlabel houter trivial hfront hback (List.cons_ne_nil _ [])
  rw [if_neg (by decide)] at hitem hsequence
  refine ⟨hlabel, houter, hfront, hback, hitem, hsequence, fun context => ?_⟩
  rw [hmatch context n rfl rfl, if_neg (by decide)]

-- The label of a possessive pronoun is no item.
theorem compile_label_possessive :
    let n : Node := .root (.node "PRP$" [.leaf "my"])
    n.tree.isLeaf = false ∧ n.tree.label.toList.head?.any Char.isAlpha = true ∧
      n.tree.label.toList.all (fun c => c.isAlpha || c == '$' || c == '-') = true ∧
      compile "PRP$" = .error (.spurious .finish) ∧
      compile "NP > [ PRP$ NN ]" = .error .finishNotLast ∧
      ∀ context, matchCaptures context "PRP$" n = .error (.form (.spurious .finish)) := by
  intro n
  have hcompile : compile "PRP$" = .error (.spurious .finish) := by decide +kernel
  exact ⟨rfl, by decide, by decide, hcompile, by decide +kernel,
    fun context => matchCaptures_of_compile_eq_error hcompile context n⟩

end Reading

end HeadPercolation.Pattern
