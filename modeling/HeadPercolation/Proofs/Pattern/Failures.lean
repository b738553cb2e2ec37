import HeadPercolation.Proofs.Pattern.Bracketing
import HeadPercolation.Proofs.Pattern.Matching
import HeadPercolation.Proofs.Pattern.Writing

namespace HeadPercolation.Pattern

-- What an error says about the tokens of a pattern.
def FormError.Concerns (ts : List Token) : FormError → Prop
  | unclosedLiteral => False
  | mismatched t =>
    t ∈ ts ∧ (∃ bracket, t = .opening bracket ∨ t = .closing bracket) ∧ ¬Balanced ts
  | emptyAlternative => ¬HasFullChoices ts
  | missingItem => .negation ∈ ts
  | spurious t => t ∈ ts ∧ ∀ text, t ≠ .item text
  | finishNotLast => .finish ∈ ts
  | alternativeNotSingle => .opening .round ∈ ts
  | malformedCapture text =>
    .item text ∈ ts ∧
      ∃ item name, Text.cutAt '=' text.toList = some (item, name) ∧ (item = [] ∨ name = [])
  | missingArgument _ => .arrow ∈ ts
  | repetitionInSet times => .repetition times ∈ ts

-- The names in a term are those of items.
def Term.NamedIn (ts : List Token) (term : Term) : Prop :=
  ∀ name ∈ term.macros, ∃ text, .item text ∈ ts ∧ Text.startsWith ("%" ++ name) text

def Element.IsFrom (ts : List Token) : Element → Prop
  | token t => t ∈ ts
  | sequence content =>
    .opening .square ∈ ts ∧
      Ensures (·.Concerns ts) (fun terms => ∀ term ∈ terms.terms, term.NamedIn ts) content
  | set content =>
    .opening .curly ∈ ts ∧
      Ensures (·.Concerns ts) (fun terms => ∀ term ∈ terms.terms, term.NamedIn ts) content
  | choice alternatives =>
    Ensures (·.Concerns ts) (fun terms => ∀ term ∈ terms, term.NamedIn ts) alternatives

def Stage.IsFrom (ts : List Token) : Stage → Prop
  | between => True
  | afterNegation => .negation ∈ ts
  | afterItem draft => draft.core.NamedIn ts
  | afterReach draft _ => draft.core.NamedIn ts ∧ .arrow ∈ ts
  | afterContents draft => draft.core.NamedIn ts
  | finished => .finish ∈ ts

structure State.IsFrom (ts : List Token) (s : State) : Prop where
  done : ∀ term ∈ s.done, term.NamedIn ts
  stage : s.stage.IsFrom ts

variable {ts : List Token} {place : Place} {done : List Term} {draft : Draft} {term : Term}
  {e : Element} {s : State} {text : String} {gs content : List Group} {g : Group}
  {alternatives : List (List Group)}

theorem Draft.namedIn_term (h : draft.core.NamedIn ts) : draft.term.NamedIn ts := by
  obtain ⟨negated, core, name⟩ := draft
  cases negated <;> cases name <;> exact h

theorem macros_ofText {name : String} (h : name ∈ (Term.item (.ofText text)).macros) :
    text = "%" ++ name := by
  unfold Item.ofText at h
  split at h
  · rename_i hnamed
    obtain ⟨rest, hrest⟩ := List.isPrefixOf_iff_prefix.mp hnamed
    rw [List.mem_singleton.mp h, ← String.toList_inj, ← hrest]
    simp
  · cases h

theorem readItem_ensures (h : .item text ∈ ts) :
    Ensures (·.Concerns ts) (fun core => core.1.NamedIn ts) (readItem text) := by
  have hwhole : (Term.item (.ofText text)).NamedIn ts := by
    intro name hname
    refine ⟨text, h, ?_⟩
    rw [macros_ofText hname]
    simp [Text.startsWith]
  unfold readItem
  split
  · exact hwhole
  · split
    · exact hwhole
    · rename_i item name hcut
      split
      · rename_i hempty
        simp only [Bool.or_eq_true, List.isEmpty_iff] at hempty
        exact ⟨h, item, name, hcut, hempty⟩
      · intro macroName hname
        refine ⟨text, h, ?_⟩
        rw [Text.startsWith, List.isPrefixOf_iff_prefix, ← macros_ofText hname,
          String.toList_ofList, Text.cutAt_eq_some hcut]
        exact List.prefix_append item ('=' :: name)

theorem readCore_ensures (h : e.IsFrom ts) :
    Ensures (·.Concerns ts) (fun core => core.1.NamedIn ts) (readCore e) := by
  cases e with
  | token t =>
      cases t with
      | item text => exact readItem_ensures h
      | _ => exact ⟨h, by simp⟩
  | sequence content => exact ⟨h.1, by simp⟩
  | set content => exact ⟨h.1, by simp⟩
  | choice alternatives =>
      refine Ensures.map h fun terms hterms name hname => ?_
      obtain ⟨term, hterm, hname⟩ := mem_macrosOf.mp hname
      exact hterms term hterm name hname

theorem start_ensures (hdone : ∀ term ∈ done, term.NamedIn ts) (h : e.IsFrom ts)
    (negated : Bool) : Ensures (·.Concerns ts) (·.IsFrom ts) (start place done negated e) := by
  unfold start
  split
  · split
    · exact ⟨hdone, h⟩
    · exact ⟨h, by simp⟩
  · exact (readCore_ensures h).bind fun core hcore => ⟨hdone, hcore⟩

theorem continueAfter_ensures (hdone : ∀ term ∈ done, term.NamedIn ts)
    (hdraft : draft.core.NamedIn ts) (h : e.IsFrom ts) :
    Ensures (·.Concerns ts) (·.IsFrom ts) (continueAfter place done draft e) := by
  have hterm := Draft.namedIn_term hdraft
  unfold continueAfter
  split
  · split
    · exact h
    · exact ⟨forall_mem_concat hdone hterm, trivial⟩
  · exact ⟨forall_mem_concat hdone hterm, h⟩
  · exact start_ensures (forall_mem_concat hdone hterm) h false

theorem readContents_ensures (h : e.IsFrom ts) :
    Ensures (·.Concerns ts) (fun contents => ∀ term ∈ contents.2, term.NamedIn ts)
      (readContents e) := by
  unfold readContents
  split
  · exact h.2.map fun terms hterms => hterms
  · exact h.2.map fun terms hterms => hterms
  · exact h
  · refine (readCore_ensures h).bind fun core hcore term hterm => ?_
    rw [List.mem_singleton.mp hterm]
    exact Draft.namedIn_term hcore

theorem step_afterReach_ensures (hdone : ∀ term ∈ done, term.NamedIn ts)
    (hdraft : draft.core.NamedIn ts) (h : e.IsFrom ts) (reach : Reach) :
    Ensures (·.Concerns ts) (State.IsFrom ts) (do
      let (shape, contents) ← readContents e
      return ⟨done, .afterContents (draft.containing reach shape contents)⟩) := by
  refine (readContents_ensures h).bind fun contents hcontents => ⟨hdone, fun name hname => ?_⟩
  rcases List.mem_append.mp hname with hname | hname
  · exact hdraft name hname
  · obtain ⟨term, hterm, hname⟩ := mem_macrosOf.mp hname
    exact hcontents term hterm name hname

theorem step_ensures (hs : s.IsFrom ts) (h : e.IsFrom ts) :
    Ensures (·.Concerns ts) (·.IsFrom ts) (step place s e) := by
  have hdone := hs.done
  have hstage {stage : Stage} (heq : s.stage = stage) : stage.IsFrom ts := heq ▸ hs.stage
  unfold step
  split
  · exact ⟨hdone, h⟩
  · exact start_ensures hdone h false
  · exact start_ensures hdone h true
  · exact ⟨hdone, hstage ‹s.stage = .afterItem _›, h⟩
  · exact continueAfter_ensures hdone (hstage ‹s.stage = .afterItem _›) h
  · exact ⟨hdone, (hstage ‹s.stage = .afterReach _ .children› : Stage.IsFrom ts (.afterReach _ _))⟩
  · exact step_afterReach_ensures hdone (hstage ‹s.stage = .afterReach _ _›).1 h _
  · exact continueAfter_ensures hdone (hstage ‹s.stage = .afterContents _›) h
  · exact hstage ‹s.stage = .finished›

theorem State.finish_ensures (hs : s.IsFrom ts) :
    Ensures (·.Concerns ts) (fun terms => ∀ term ∈ terms.terms, term.NamedIn ts) s.finish := by
  obtain ⟨done, stage⟩ := s
  obtain ⟨hdone, hstage⟩ := hs
  cases stage with
  | between => exact hdone
  | afterNegation => exact hstage
  | afterItem draft => exact forall_mem_concat hdone (Draft.namedIn_term hstage)
  | afterReach draft reach => exact hstage.2
  | afterContents draft => exact forall_mem_concat hdone (Draft.namedIn_term hstage)
  | finished => exact hdone

theorem readTerms_ensures (h : ∀ g ∈ gs, g.element.IsFrom ts) :
    Ensures (·.Concerns ts) (fun terms => ∀ term ∈ terms.terms, term.NamedIn ts)
      (readTerms place (elementsOf gs)) := by
  have helements : ∀ e ∈ elementsOf gs, e.IsFrom ts := by
    rw [elementsOf_eq_map, List.forall_mem_map]
    exact h
  have hbegin : State.IsFrom ts ⟨[], .between⟩ := ⟨by simp, trivial⟩
  exact (ensures_foldlM (fun e he s hs => step_ensures hs (helements e he)) hbegin).bind
    fun s hs => State.finish_ensures hs

theorem readAlternatives_ensures (hround : .opening .round ∈ ts)
    (h : ∀ gs ∈ alternatives, ∀ g ∈ gs, g.element.IsFrom ts) :
    Ensures (·.Concerns ts) (fun terms => ∀ term ∈ terms, term.NamedIn ts)
      (readAlternatives alternatives) := by
  induction alternatives with
  | nil => exact List.forall_mem_nil _
  | cons gs alternatives ih =>
      obtain ⟨hgs, hrest⟩ := List.forall_mem_cons.mp h
      have hfirst : Ensures (·.Concerns ts) (·.NamedIn ts) (readAlternative (elementsOf gs)) := by
        refine (readTerms_ensures hgs).bind fun terms hterms => ?_
        split
        · exact hterms _ (by simp_all)
        · exact hround
      exact hfirst.bind fun term hterm => (ih hrest).bind fun terms hterms =>
        List.forall_mem_cons.mpr ⟨hterm, hterms⟩

theorem enclose_isFrom {bracket : Bracket} (hbracket : .opening bracket ∈ ts)
    (hcontent : ∀ g ∈ content, g.element.IsFrom ts)
    (h : Group.enclose bracket content = .ok g) : g.element.IsFrom ts := by
  cases bracket with
  | square =>
      cases h
      exact ⟨hbracket, readTerms_ensures hcontent⟩
  | curly =>
      cases h
      exact ⟨hbracket, readTerms_ensures hcontent⟩
  | round =>
      simp only [Group.enclose] at h
      split at h
      · cases h
      · cases h
        exact readAlternatives_ensures hbracket fun gs hgs g hg =>
          hcontent g (mem_of_mem_splitAtBars hgs hg)

theorem Nests.isFrom {ts' : List Token} (h : Nests ts' gs) (hsub : ts' ⊆ ts) :
    ∀ g ∈ gs, g.element.IsFrom ts := by
  induction h with
  | nil => simp
  | token _ _ _ ih =>
      obtain ⟨ht, hrest⟩ := List.cons_subset.mp hsub
      exact List.forall_mem_cons.mpr ⟨ht, ih hrest⟩
  | enclosed bracket _ hg _ ihinner ih =>
      rw [List.cons_append, List.cons_subset, List.append_subset, List.cons_subset] at hsub
      obtain ⟨hbracket, hinner, -, hrest⟩ := hsub
      exact List.forall_mem_cons.mpr ⟨enclose_isFrom hbracket (ihinner hinner) hg, ih hrest⟩

-- What an error says about the text of a pattern.
def FormError.IsFound (pattern : String) (e : FormError) : Prop :=
  (e = .unclosedLiteral ∧ HasUnclosed (fragments pattern.toList)) ∨
    ∃ ts, tokens pattern = .ok ts ∧ e.Concerns ts

theorem compile_ensures {pattern : String} (h : tokens pattern = .ok ts) :
    Ensures (·.Concerns ts) (fun terms => ∀ term ∈ terms, term.NamedIn ts) (compile pattern) := by
  have hparse : parse pattern = groups ts := bind_of_eq_ok h
  rw [compile, hparse]
  cases hgroups : groups ts with
  | error e =>
      rcases groups_eq_error hgroups with ⟨t, ht, rfl, hbracket, hnot⟩ | ⟨rfl, hnot⟩
      · exact ⟨ht, hbracket, hnot⟩
      · exact hnot
  | ok gs =>
      have hgs := (nests_of_groups hgroups).isFrom (List.Subset.refl ts)
      exact (readTerms_ensures hgs).map fun terms hterms => hterms

-- Terms from tokens without a percent sign leave nothing to the context.
theorem supports_of_namedIn {terms : List Term} (hterms : ∀ term ∈ terms, term.NamedIn ts)
    (hitems : ∀ text, .item text ∈ ts → Text.startsWith "%" text = false) (context : Context) :
    context.Supports (macrosOf terms) := by
  intro name hname
  obtain ⟨term, hterm, hname⟩ := mem_macrosOf.mp hname
  obtain ⟨text, htext, hstarts⟩ := hterms term hterm name hname
  have hsign : Text.startsWith "%" text = true := by
    rw [Text.startsWith, List.isPrefixOf_iff_prefix, String.toList_append] at hstarts
    exact List.isPrefixOf_iff_prefix.mpr ((List.prefix_append _ _).trans hstarts)
  rw [hitems text htext] at hsign
  cases hsign

-- A pattern compiles, or it is refused for what stands in it, whatever it is matched against. If
-- it compiles and no item begins with a percent sign, no match fails with an error.
theorem compile_or_isFound (pattern : String) :
    (∃ e, compile pattern = .error e ∧ e.IsFound pattern ∧
        ∀ context n, matchCaptures context pattern n = .error (.form e)) ∨
      ∃ ts terms, tokens pattern = .ok ts ∧ compile pattern = .ok terms ∧
        ((∀ text, .item text ∈ ts → Text.startsWith "%" text = false) →
          ∀ context n, ∃ captured, matchCaptures context pattern n = .ok captured ∧
            (captured.isSome ↔ ∀ term ∈ terms, term.Holds context n.tree)) := by
  cases htokens : tokens pattern with
  | error e =>
      have hcompile : compile pattern = .error e := by
        rw [compile, parse, htokens]
        rfl
      obtain ⟨rfl, ⟨start, hnone, -⟩ | hunclosed⟩ := tokensFrom_eq_error (by simp) htokens
      · cases hnone
      · exact Or.inl ⟨_, hcompile, Or.inl ⟨rfl, hunclosed⟩,
          matchCaptures_of_compile_eq_error hcompile⟩
  | ok ts =>
      have hensures := compile_ensures htokens
      cases hcompile : compile pattern with
      | error e =>
          rw [hcompile] at hensures
          exact Or.inl ⟨e, rfl, Or.inr ⟨ts, htokens, hensures⟩,
            matchCaptures_of_compile_eq_error hcompile⟩
      | ok terms =>
          rw [hcompile] at hensures
          refine Or.inr ⟨ts, terms, rfl, rfl, fun hitems context n => ?_⟩
          exact matchCaptures_isSome_iff hcompile (supports_of_namedIn hensures hitems context) n

-- The node matches by a child that has no children of its own.
theorem compile_or_isFound_childless :
    let pattern := "VP >> [ .* !RB=head $ ]"
    let ts : List Token := [.item "VP", .arrow, .arrow, .opening .square, .item ".",
      .repetition .zeroOrMore, .negation, .item "RB=head", .finish, .closing .square]
    let terms : List Term := [
      .containing (.item (.atom (.tag "VP"))) .anywhere (.sequence true) [
        .repeated (.item (.atom .any)) .zeroOrMore,
        .negated (.capture (.item (.atom (.tag "RB"))) "head")]]
    let n : Node := .root (.node "VP" [.node "VB" [.leaf "go"], .node "NP" []])
    tokens pattern = .ok ts ∧ compile pattern = .ok terms ∧
      (∀ text, .item text ∈ ts → Text.startsWith "%" text = false) ∧
      ∀ context, ∃ captured, matchCaptures context pattern n = .ok captured ∧
        (captured.isSome ↔ ∀ term ∈ terms, term.Holds context n.tree) := by
  intro pattern ts terms n
  have htokens : tokens pattern = .ok ts := by decide +kernel
  have hcompile : compile pattern = .ok terms := by decide +kernel
  have hitems : ∀ text, .item text ∈ ts → Text.startsWith "%" text = false := by
    intro text htext
    simp only [ts, List.mem_cons, Token.item.injEq, reduceCtorEq, List.not_mem_nil, false_or,
      or_false] at htext
    rcases htext with rfl | rfl | rfl <;> decide
  refine ⟨htokens, hcompile, hitems, fun context => ?_⟩
  rcases compile_or_isFound pattern with ⟨e, herror, -⟩ | ⟨ts', terms', htokens', hcompile', hmatch⟩
  · cases hcompile.symm.trans herror
  · cases htokens.symm.trans htokens'
    cases hcompile.symm.trans hcompile'
    exact hmatch hitems context n

end HeadPercolation.Pattern
