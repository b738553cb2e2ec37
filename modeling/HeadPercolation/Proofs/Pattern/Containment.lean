import HeadPercolation.Pattern.Search
import HeadPercolation.Proofs.Pattern.Captured
import HeadPercolation.Proofs.Pattern.Writing
import HeadPercolation.Proofs.Tree.Leaves

namespace HeadPercolation.Pattern

variable {before after pattern : String} {gs gs' : List Group} {g : Group}
  {i : Item} {reach : Reach} {shape : Shape} {contents : List Term} {s s' : State}
  {e : Element} {error : FormError}

section Reading

theorem parse_append_space (h : parse before = .ok gs) (h' : parse after = .ok gs') :
    parse (before ++ " " ++ after) = .ok (gs ++ gs') := by
  obtain ⟨ts, htokens, hgroups⟩ := bind_eq_ok.mp h
  obtain ⟨ts', htokens', hgroups'⟩ := bind_eq_ok.mp h'
  rw [parse, bind_of_eq_ok (tokens_append_space htokens htokens')]
  exact groups_append hgroups hgroups'

-- In a set, terms are complete only behind an item or its contents.
def State.IsInSet (s : State) : Prop :=
  match s.stage with
  | .between => s.done = []
  | .afterContents draft => ∀ i, draft.core ≠ .item i
  | .finished => False
  | _ => True

theorem start_isInSet {done : List Term} {negated : Bool}
    (h : start .set done negated e = .ok s) : s.IsInSet := by
  unfold start at h
  split at h
  · cases h
  · obtain ⟨core, -, heq⟩ := bind_eq_ok.mp h
    cases heq
    trivial

theorem continueAfter_isInSet {done : List Term} {draft : Draft}
    (h : continueAfter .set done draft e = .ok s) : s.IsInSet := by
  unfold continueAfter at h
  split at h
  · cases h
  · cases h
    trivial
  · exact start_isInSet h

theorem step_isInSet (h : step .set s e = .ok s') : s'.IsInSet := by
  unfold step at h
  split at h
  · cases h
    trivial
  · exact start_isInSet h
  · exact start_isInSet h
  · cases h
    trivial
  · exact continueAfter_isInSet h
  · cases h
    trivial
  · obtain ⟨contents, -, heq⟩ := bind_eq_ok.mp h
    cases heq
    simp [State.IsInSet]
  · exact continueAfter_isInSet h
  · cases h

theorem Draft.eq_of_term_eq_item {draft : Draft} (h : draft.term = .item i) :
    draft = ⟨false, .item i, none⟩ := by
  obtain ⟨negated, core, name⟩ := draft
  cases negated <;> cases name <;> simp_all [Draft.term]

-- Contents may follow a single item, since nothing else has been read.
theorem after_eq_ok_of_compile (h : compile pattern = .ok [.item i]) :
    ∃ gs, parse pattern = .ok gs ∧
      State.after .set ⟨[], .between⟩ gs = .ok ⟨[], .afterItem ⟨false, .item i, none⟩⟩ := by
  obtain ⟨gs, hparse, hterms⟩ := bind_eq_ok.mp h
  obtain ⟨result, hread, hresult⟩ := map_eq_ok.mp hterms
  obtain ⟨s, hfold, hfinish⟩ := bind_eq_ok.mp hread
  have hset : s.IsInSet := foldlM_preserves (fun _ _ _ _ _ => step_isInSet) hfold rfl
  refine ⟨gs, hparse, hfold.trans ?_⟩
  obtain ⟨done, stage⟩ := s
  cases stage with
  | between =>
      cases hfinish
      cases (show done = [] from hset).symm.trans hresult
  | afterNegation => cases hfinish
  | afterItem draft =>
      cases hfinish
      rw [← List.nil_append [Term.item i]] at hresult
      obtain ⟨rfl, hlast⟩ := List.append_inj' hresult rfl
      rw [Draft.eq_of_term_eq_item (List.cons.inj hlast).1]
  | afterReach draft reach => cases hfinish
  | afterContents draft =>
      cases hfinish
      rw [← List.nil_append [Term.item i]] at hresult
      obtain ⟨rfl, hlast⟩ := List.append_inj' hresult rfl
      have hdraft := Draft.eq_of_term_eq_item (List.cons.inj hlast).1
      exact absurd (congrArg Draft.core hdraft) (hset i)
  | finished => exact hset.elim

theorem parse_sign (reach : Reach) (draft : Draft) :
    ∃ gs, parse reach.sign = .ok gs ∧
      State.after .set ⟨[], .afterItem draft⟩ gs = .ok ⟨[], .afterReach draft reach⟩ := by
  obtain ⟨gs, hspell, hafter⟩ := exists_spelling_sign reach .set draft
  have htokens := hspell.tokenizes.tokens_intercalate
  rw [String.intercalate_singleton] at htokens
  exact ⟨gs, (bind_of_eq_ok htokens).trans hspell.areFound.groups_eq_ok, hafter []⟩

-- A second arrow is no contents either, though the list might go on behind it.
theorem finish_of_readContents_eq_error (h : readContents e = .error error) (draft : Draft)
    (reach : Reach) :
    ∃ error, (step .set ⟨[], .afterReach draft reach⟩ e >>= State.finish) = .error error := by
  have hfails (next : Shape × List Term → Except FormError State) :
      ((readContents e >>= next) >>= State.finish) = .error error := by
    rw [h]
    rfl
  cases e with
  | token t =>
      cases t with
      | arrow =>
          cases reach with
          | children => exact ⟨.missingArgument .anywhere, rfl⟩
          | anywhere => exact ⟨error, hfails _⟩
      | _ => cases reach <;> exact ⟨error, hfails _⟩
  | _ => cases reach <;> exact ⟨error, hfails _⟩

-- The last group is read as the contents that the sign announces.
theorem readTerms_argument {signs : List Group} {draft : Draft}
    (hafter : State.after .set ⟨[], .between⟩ gs = .ok ⟨[], .afterItem draft⟩)
    (hreach : State.after .set ⟨[], .afterItem draft⟩ signs = .ok ⟨[], .afterReach draft reach⟩)
    (g : Group) :
    readTerms .set (elementsOf (gs ++ (signs ++ [g]))) =
      step .set ⟨[], .afterReach draft reach⟩ g.element >>= State.finish := by
  have hlast := (State.after_append hafter _).trans (State.after_append hreach [g])
  rw [State.after] at hlast
  rw [readTerms, hlast, State.after, elementsOf, elementsOf, List.foldlM_cons]
  cases step .set _ g.element <;> rfl

-- Behind an item and a sign, a pattern is refused just if the argument is no contents.
theorem compile_containing (hitem : compile before = .ok [.item i])
    (hargument : parse after = .ok [g]) (reach : Reach) :
    (compile (before ++ " " ++ (reach.sign ++ " " ++ after))).toOption =
      (readContents g.element).toOption.map fun (shape, contents) =>
        [.containing (.item i) reach shape contents] := by
  obtain ⟨gs, hparse, hafter⟩ := after_eq_ok_of_compile hitem
  obtain ⟨signs, hsigns, hreach⟩ := parse_sign reach ⟨false, .item i, none⟩
  have hwhole := parse_append_space hparse (parse_append_space hsigns hargument)
  rw [compile, bind_of_eq_ok hwhole, termsOf, toOption_map, readTerms_argument hafter hreach]
  cases hcontents : readContents g.element with
  | error error =>
      obtain ⟨error', herror⟩ := finish_of_readContents_eq_error hcontents _ reach
      rw [herror]
      rfl
  | ok contents =>
      rw [bind_of_eq_ok (step_afterReach hcontents .set [] _ reach)]
      rfl

end Reading

section Running

variable {atom : Atom}

-- The contents of an atom capture what they capture by themselves.
theorem matchCaptures_containing
    (h : compile pattern = .ok [.containing (.item (.atom atom)) reach shape contents])
    (context : Context) (n : Node) :
    matchCaptures context pattern n =
      if atom.holds n.tree then
        (reach.lists n).findSomeM? fun nodes =>
          (runContents context contents shape nodes []).mapError .lookup
      else .ok none := by
  have hrun : matchCaptures context pattern n =
      (runSet context [.containing (.item (.atom atom)) reach shape contents] [n] []).mapError
        .lookup := by
    rw [matchCaptures, h]
    rfl
  rw [hrun, runSet_single, ← findSomeM?_mapError]
  simp only [Term.run, Item.holds]
  cases atom.holds n.tree with
  | false => rfl
  | true => cases shape <;> rfl

-- Below a node, contents are looked for as in each node that there is.
theorem matchCaptures_anywhere {deep shallow : String}
    (hdeep : compile deep = .ok [.containing (.item (.atom atom)) .anywhere shape contents])
    (hshallow : compile shallow = .ok [.containing (.item (.atom .any)) .children shape contents])
    (context : Context) (n : Node) :
    matchCaptures context deep n =
      if atom.holds n.tree then n.below.findSomeM? (matchCaptures context shallow)
      else .ok none := by
  have hbelow (m : Node) : matchCaptures context shallow m =
      (runContents context contents shape m.children []).mapError .lookup := by
    rw [matchCaptures_containing hshallow, Reach.lists, findSomeM?_singleton]
    rfl
  rw [matchCaptures_containing hdeep, Reach.lists, findSomeM?_map, funext hbelow]

-- A search ends at the first node that has a match or an error, or it goes through all nodes. The
-- captures of the match are those of the first node that is found.
theorem searchAmong_cases (context : Context) (pattern : String) (ns : List Node) :
    (ns.findSomeM? (matchCaptures context pattern) = .ok none ∧
        searchAmong context pattern ns = ⟨[], none⟩) ∨
      (∃ error, ns.findSomeM? (matchCaptures context pattern) = .error error ∧
        searchAmong context pattern ns = ⟨[], some error⟩) ∨
      ∃ captures m rest, ns.findSomeM? (matchCaptures context pattern) = .ok (some captures) ∧
        (searchAmong context pattern ns).nodes = m :: rest ∧
        matchCaptures context pattern m = .ok (some captures) := by
  induction ns with
  | nil => exact Or.inl ⟨rfl, rfl⟩
  | cons n ns ih =>
      rw [List.findSomeM?_cons, searchAmong]
      cases hn : matchCaptures context pattern n with
      | error error => exact Or.inr (Or.inl ⟨error, rfl, rfl⟩)
      | ok captured =>
          cases captured with
          | none => exact ih
          | some captures => exact Or.inr (Or.inr ⟨captures, n, _, rfl, rfl, hn⟩)

end Running

section Search

variable {x a : String} {atom : Atom}

-- The pattern for all nodes below and that for a single one are refused alike.
theorem compile_deep_cases (hitem : compile x = .ok [.item (.atom atom)])
    (hargument : parse a = .ok [g]) :
    (∃ shape contents,
        compile (x ++ " >> " ++ a) =
          .ok [.containing (.item (.atom atom)) .anywhere shape contents] ∧
        compile (". > " ++ a) = .ok [.containing (.item (.atom .any)) .children shape contents]) ∨
      ∃ error error', compile (x ++ " >> " ++ a) = .error error ∧
        compile (". > " ++ a) = .error error' := by
  have hany : compile "." = .ok [.item (.atom .any)] := by decide +kernel
  have hdeep := compile_containing hitem hargument .anywhere
  have hshallow := compile_containing hany hargument .children
  rw [show x ++ " " ++ (Reach.anywhere.sign ++ " " ++ a) = x ++ " >> " ++ a from
    String.toList_inj.mp (by simp [Reach.sign])] at hdeep
  rw [show "." ++ " " ++ (Reach.children.sign ++ " " ++ a) = ". > " ++ a from
    String.toList_inj.mp (by simp [Reach.sign])] at hshallow
  cases hcontents : readContents g.element with
  | ok contents =>
      rw [hcontents] at hdeep hshallow
      exact Or.inl ⟨contents.1, contents.2, toOption_eq_some.mp hdeep,
        toOption_eq_some.mp hshallow⟩
  | error error =>
      rw [hcontents] at hdeep hshallow
      obtain ⟨error, herror⟩ := toOption_eq_none.mp hdeep
      obtain ⟨error', herror'⟩ := toOption_eq_none.mp hshallow
      exact Or.inr ⟨error, error', herror, herror'⟩

theorem matchCaptures_deep (hitem : compile x = .ok [.item (.atom atom)])
    (hargument : parse a = .ok [g]) (context : Context) (t : Tree) :
    (∀ captures, matchCaptures context (x ++ " >> " ++ a) (.root t) = .ok (some captures) ↔
        atom.holds t ∧
          t.nodes.findSomeM? (matchCaptures context (". > " ++ a)) = .ok (some captures)) ∧
      ∀ found, t.nodes.findSomeM? (matchCaptures context (". > " ++ a)) = .ok found →
        ∃ captured, matchCaptures context (x ++ " >> " ++ a) (.root t) = .ok captured := by
  rcases compile_deep_cases hitem hargument with
    ⟨shape, contents, hdeep, hshallow⟩ | ⟨error, error', hdeep, hshallow⟩
  · have hmatch : matchCaptures context (x ++ " >> " ++ a) (.root t) =
        if atom.holds t then t.nodes.findSomeM? (matchCaptures context (". > " ++ a))
        else .ok none := matchCaptures_anywhere hdeep hshallow context (.root t)
    by_cases hholds : atom.holds t = true
    · rw [hmatch, if_pos hholds]
      exact ⟨fun captures => by rw [and_iff_right hholds], fun found hfound => ⟨found, hfound⟩⟩
    · rw [hmatch, if_neg hholds]
      exact ⟨fun captures => by simp [hholds], fun found _ => ⟨none, rfl⟩⟩
  · have hsearch : t.nodes.findSomeM? (matchCaptures context (". > " ++ a)) =
        .error (.form error') := by
      have hnodes : t.nodes = .root t :: _ := (Node.root t).below_eq
      rw [hnodes, List.findSomeM?_cons, matchCaptures_of_compile_eq_error hshallow]
      rfl
    rw [matchCaptures_of_compile_eq_error hdeep, hsearch]
    simp

-- Whether a node has contents somewhere below it, and what they capture, is what a search for a
-- node that has them finds. An argument is an item, or brackets with all that they enclose.
theorem matchCaptures_deep_iff_search (hitem : compile x = .ok [.item (.atom atom)])
    (hargument : parse a = .ok [g]) (context : Context) (t : Tree) :
    let found := search context (". > " ++ a) t
    ((∃ captures, matchCaptures context (x ++ " >> " ++ a) (.root t) = .ok (some captures)) ↔
        (∃ captures, matchCaptures context x (.root t) = .ok (some captures)) ∧
          found.nodes ≠ []) ∧
      (∀ captures, matchCaptures context (x ++ " >> " ++ a) (.root t) = .ok (some captures) →
        ∃ m rest, found.nodes = m :: rest ∧
          matchCaptures context (". > " ++ a) m = .ok (some captures)) ∧
      (found.error = none →
        ∃ captured, matchCaptures context (x ++ " >> " ++ a) (.root t) = .ok captured) := by
  intro found
  obtain ⟨hmatch, hok⟩ := matchCaptures_deep hitem hargument context t
  have hatom : (∃ captures, matchCaptures context x (.root t) = .ok (some captures)) ↔
      atom.holds t := by
    rw [matchCaptures_atom hitem]
    by_cases hholds : atom.holds t <;> simp [Node.root, hholds]
  simp only [hatom, hmatch]
  rcases searchAmong_cases context (". > " ++ a) t.nodes with
    ⟨hfind, hfound⟩ | ⟨error, hfind, hfound⟩ | ⟨captures, m, rest, hfind, hfound, hm⟩
  · have hnodes : found.nodes = [] := congrArg Findings.nodes hfound
    simp only [hfind, hnodes]
    exact ⟨by simp, by simp, fun _ => hok none hfind⟩
  · have hnodes : found.nodes = [] := congrArg Findings.nodes hfound
    have herror : found.error = some error := congrArg Findings.error hfound
    simp [hfind, hnodes, herror]
  · have hnodes : found.nodes = m :: rest := hfound
    simp only [hfind, hnodes]
    refine ⟨by simp, ?_, fun _ => hok (some captures) hfind⟩
    rintro captures' ⟨-, hsame⟩
    cases hsame
    exact ⟨m, rest, rfl, hm⟩

theorem matchCaptures_deep_iff_search_adverb :
    let a := "[ .* RB=adverb $ ]"
    let t : Tree := .node "S" [.node "NP" [.leaf "we"],
      .node "VP" [.node "VB" [.leaf "go"], .node "RB" [.leaf "now"]]]
    compile "S" = .ok [.item (.atom (.tag "S"))] ∧ (∃ g, parse a = .ok [g]) ∧ ∀ context,
      let found := search context (". > " ++ a) t
      ((∃ captures, matchCaptures context ("S" ++ " >> " ++ a) (.root t) = .ok (some captures)) ↔
          (∃ captures, matchCaptures context "S" (.root t) = .ok (some captures)) ∧
            found.nodes ≠ []) ∧
        (∀ captures, matchCaptures context ("S" ++ " >> " ++ a) (.root t) = .ok (some captures) →
          ∃ m rest, found.nodes = m :: rest ∧
            matchCaptures context (". > " ++ a) m = .ok (some captures)) ∧
        (found.error = none →
          ∃ captured, matchCaptures context ("S" ++ " >> " ++ a) (.root t) = .ok captured) := by
  intro a t
  have hitem : compile "S" = .ok [.item (.atom (.tag "S"))] := by decide +kernel
  have htokens : tokens a = .ok [.opening .square, .item ".", .repetition .zeroOrMore,
      .item "RB=adverb", .finish, .closing .square] := by decide +kernel
  have hcontent : Nests [.item ".", .repetition .zeroOrMore, .item "RB=adverb", .finish]
      [.token (.item "."), .token (.repetition .zeroOrMore), .token (.item "RB=adverb"),
        .token .finish] :=
    .token (by simp) (by simp) (.token (by simp) (by simp) (.token (by simp) (by simp)
      (.token (by simp) (by simp) .nil)))
  have hgroups := (Nests.enclosed .square hcontent rfl .nil).areFound.groups_eq_ok
  rw [(Nests.enclosed .square hcontent rfl .nil).tokens_eq] at hgroups
  have hargument := (bind_of_eq_ok htokens).trans hgroups
  exact ⟨hitem, ⟨_, hargument⟩, fun context =>
    matchCaptures_deep_iff_search hitem hargument context t⟩

end Search

end HeadPercolation.Pattern
