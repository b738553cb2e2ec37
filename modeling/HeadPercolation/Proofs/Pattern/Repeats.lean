import HeadPercolation.Proofs.Pattern.Macros
import HeadPercolation.Proofs.Pattern.Steps

namespace HeadPercolation.Pattern

variable {terms contents : List Term} {term core s t : Term} {name : Option String}
  {p q : Option Place} {place : Place} {allowed : Place → Prop} {times : Repetition}

section Occurrences

-- A part of a term, with the list in brackets that it is a member of, if any.
inductive Term.HasPart : Term → Option Place → Term → Prop
  | alternative {alternatives : List Term} {t : Term} (h : t ∈ alternatives) :
      HasPart (.anyOf alternatives) (some .alternative) t
  | container (term : Term) (reach : Reach) (shape : Shape) (contents : List Term) :
      HasPart (.containing term reach shape contents) none term
  | content (term : Term) (reach : Reach) (shape : Shape) {contents : List Term} {t : Term}
      (h : t ∈ contents) : HasPart (.containing term reach shape contents) (some shape.content) t
  | captured (term : Term) (name : String) : HasPart (.capture term name) none term
  | negated (term : Term) : HasPart (.negated term) none term
  | repeated (term : Term) (times : Repetition) : HasPart (.repeated term times) none term

-- What occurs in the terms of a pattern, which are a set.
inductive Occurs (terms : List Term) : Option Place → Term → Prop
  | member {t : Term} (h : t ∈ terms) : Occurs terms (some .set) t
  | part {p q : Option Place} {s t : Term} (hs : Occurs terms p s) (ht : s.HasPart q t) :
      Occurs terms q t

-- A term whose repetitions are members of the allowed lists.
inductive Term.RepeatsIn (allowed : Place → Prop) : Option Place → Term → Prop
  | item (p : Option Place) (i : Item) : RepeatsIn allowed p (.item i)
  | anyOf (p : Option Place) {alternatives : List Term}
      (h : ∀ t ∈ alternatives, RepeatsIn allowed (some .alternative) t) :
      RepeatsIn allowed p (.anyOf alternatives)
  | containing (p : Option Place) {term : Term} (reach : Reach) {shape : Shape}
      {contents : List Term} (hterm : RepeatsIn allowed none term)
      (hcontents : ∀ t ∈ contents, RepeatsIn allowed (some shape.content) t) :
      RepeatsIn allowed p (.containing term reach shape contents)
  | capture (p : Option Place) {term : Term} (name : String) (hterm : RepeatsIn allowed none term) :
      RepeatsIn allowed p (.capture term name)
  | negated (p : Option Place) {term : Term} (hterm : RepeatsIn allowed none term) :
      RepeatsIn allowed p (.negated term)
  | repeated {place : Place} {term : Term} (times : Repetition) (hplace : allowed place)
      (hterm : RepeatsIn allowed none term) : RepeatsIn allowed (some place) (.repeated term times)

theorem Term.RepeatsIn.part (h : s.RepeatsIn allowed p) (ht : s.HasPart q t) :
    t.RepeatsIn allowed q := by
  cases ht with
  | alternative hmem =>
      cases h with
      | anyOf _ halternatives => exact halternatives t hmem
  | container =>
      cases h with
      | containing _ _ hterm _ => exact hterm
  | content _ _ _ hmem =>
      cases h with
      | containing _ _ _ hcontents => exact hcontents t hmem
  | captured =>
      cases h with
      | capture _ _ hterm => exact hterm
  | negated =>
      cases h with
      | negated _ hterm => exact hterm
  | repeated =>
      cases h with
      | repeated _ _ hterm => exact hterm

theorem Occurs.repeatsIn (ht : Occurs terms p t)
    (h : ∀ s ∈ terms, s.RepeatsIn allowed (some .set)) : t.RepeatsIn allowed p := by
  induction ht with
  | member hmem => exact h _ hmem
  | part _ hpart ih => exact ih.part hpart

theorem Occurs.exists_allowed (ht : Occurs terms p (.repeated t times))
    (h : ∀ s ∈ terms, s.RepeatsIn allowed (some .set)) :
    ∃ place, p = some place ∧ allowed place := by
  cases ht.repeatsIn h with
  | repeated _ hplace _ => exact ⟨_, rfl, hplace⟩

-- Only a repetition depends on the list that it is a member of.
theorem Term.RepeatsIn.of_none (h : t.RepeatsIn allowed none) (p : Option Place) :
    t.RepeatsIn allowed p := by
  cases h with
  | item _ i => exact .item p i
  | anyOf _ halternatives => exact .anyOf p halternatives
  | containing _ reach hterm hcontents => exact .containing p reach hterm hcontents
  | capture _ name hterm => exact .capture p name hterm
  | negated _ hterm => exact .negated p hterm

end Occurrences

section Reading

variable {e : Element} {state next : State} {gs : List Group} {result : Terms} {draft : Draft}

-- What is read may be repeated anywhere but in a set.
abbrev Term.IsRead (p : Option Place) (t : Term) : Prop :=
  t.RepeatsIn (· ≠ .set) p

def Element.IsRead : Element → Prop
  | .token _ => True
  | .sequence content =>
    ∀ result, content = .ok result → ∀ t ∈ result.terms, t.IsRead (some .sequence)
  | .set content => ∀ result, content = .ok result → ∀ t ∈ result.terms, t.IsRead (some .set)
  | .choice alternatives =>
    ∀ terms, alternatives = .ok terms → ∀ t ∈ terms, t.IsRead (some .alternative)

def Stage.draft? : Stage → Option Draft
  | .afterItem draft => some draft
  | .afterReach draft _ => some draft
  | .afterContents draft => some draft
  | _ => none

structure State.IsRead (place : Place) (s : State) : Prop where
  done : ∀ t ∈ s.done, t.IsRead (some place)
  draft : ∀ draft, s.stage.draft? = some draft → draft.core.IsRead none

theorem Draft.isRead (h : draft.core.IsRead none) : draft.term.IsRead none := by
  obtain ⟨negated, core, name⟩ := draft
  have hnamed : (Draft.term ⟨false, core, name⟩).IsRead none := by
    cases name with
    | none => exact h
    | some name => exact .capture none name h
  cases negated with
  | false => exact hnamed
  | true => exact .negated none hnamed

theorem exists_item_of_readItem {text : String} (h : readItem text = .ok (core, name)) :
    ∃ i, core = .item i := by
  unfold readItem at h
  split at h
  · cases h
    exact ⟨_, rfl⟩
  · split at h
    · cases h
      exact ⟨_, rfl⟩
    · split at h
      · cases h
      · cases h
        exact ⟨_, rfl⟩

theorem readCore_isRead (he : e.IsRead) (h : readCore e = .ok (core, name)) : core.IsRead none := by
  rcases isItem_or_isChoice_of_readCore h with ⟨text, rfl⟩ | ⟨alternatives, rfl⟩
  · obtain ⟨i, rfl⟩ := exists_item_of_readItem h
    exact .item none i
  · obtain ⟨terms, hterms, heq⟩ := map_eq_ok.mp h
    cases heq
    exact .anyOf none (he terms hterms)

theorem readContents_isRead {shape : Shape} (he : e.IsRead)
    (h : readContents e = .ok (shape, contents)) :
    ∀ t ∈ contents, t.IsRead (some shape.content) := by
  unfold readContents at h
  split at h
  · obtain ⟨result, hresult, heq⟩ := map_eq_ok.mp h
    cases heq
    exact he result hresult
  · obtain ⟨result, hresult, heq⟩ := map_eq_ok.mp h
    cases heq
    exact he result hresult
  · cases h
  · obtain ⟨⟨core, name⟩, hcore, heq⟩ := bind_eq_ok.mp h
    cases heq
    rw [List.forall_mem_singleton]
    exact (Draft.isRead (readCore_isRead he hcore)).of_none _

theorem finish_isRead (hs : state.IsRead place) (h : state.finish = .ok result) :
    ∀ t ∈ result.terms, t.IsRead (some place) := by
  obtain ⟨done, stage⟩ := state
  obtain ⟨hdone, hdraft⟩ := hs
  have hlast (draft : Draft) (hstage : stage.draft? = some draft) :
      ∀ t ∈ done ++ [draft.term], t.IsRead (some place) :=
    forall_mem_concat hdone ((Draft.isRead (hdraft draft hstage)).of_none _)
  cases stage with
  | between =>
      cases h
      exact hdone
  | afterNegation => cases h
  | afterItem draft =>
      cases h
      exact hlast draft rfl
  | afterReach draft reach => cases h
  | afterContents draft =>
      cases h
      exact hlast draft rfl
  | finished =>
      cases h
      exact hdone

theorem step_isRead (he : e.IsRead) (hs : state.IsRead place) (h : step place state e = .ok next) :
    next.IsRead place := by
  cases steps_of_step h with
  | negation hends => exact ⟨finish_isRead hs hends, by rintro draft ⟨⟩⟩
  | core hends hcore =>
      refine ⟨finish_isRead hs hends, ?_⟩
      rintro draft ⟨⟩
      exact readCore_isRead he hcore
  | negated hcore =>
      refine ⟨hs.done, ?_⟩
      rintro draft ⟨⟩
      exact readCore_isRead he hcore
  | arrow done draft => exact ⟨hs.done, hs.draft⟩
  | secondArrow done draft => exact ⟨hs.done, hs.draft⟩
  | contents done draft reach hcontents =>
      refine ⟨hs.done, ?_⟩
      rintro draft' ⟨⟩
      exact .containing none reach (hs.draft draft rfl) (readContents_isRead he hcontents)
  | @repetition stage draft done times hplace hstage =>
      have hdraft : draft.core.IsRead none := by
        rcases hstage with rfl | rfl <;> exact hs.draft draft rfl
      exact ⟨forall_mem_concat hs.done (.repeated times hplace (Draft.isRead hdraft)),
        by rintro draft' ⟨⟩⟩
  | finish hplace hends => exact ⟨finish_isRead hs hends, by rintro draft ⟨⟩⟩

theorem readTerms_isRead (hgs : ∀ g ∈ gs, g.element.IsRead)
    (h : readTerms place (elementsOf gs) = .ok result) :
    ∀ t ∈ result.terms, t.IsRead (some place) := by
  have helements : ∀ e ∈ elementsOf gs, e.IsRead := by
    rw [elementsOf_eq_map, List.forall_mem_map]
    exact hgs
  obtain ⟨last, hfold, hfinish⟩ := bind_eq_ok.mp h
  have hbegin : State.IsRead place ⟨[], .between⟩ := ⟨by simp, by rintro draft ⟨⟩⟩
  exact finish_isRead
    (foldlM_preserves (fun e he _ _ => step_isRead (helements e he)) hfold hbegin) hfinish

mutual

theorem Group.element_isRead : ∀ g : Group, g.element.IsRead
  | .token _ => trivial
  | .sequence content => fun _ h => readTerms_isRead (element_isRead_of_mem content) h
  | .set content => fun _ h => readTerms_isRead (element_isRead_of_mem content) h
  | .choice alternatives => by
      rw [Group.element]
      intro terms h t ht
      obtain ⟨gs, hgs, anchored, hread⟩ := exists_of_readAlternatives h ht
      exact readTerms_isRead (element_isRead_of_mem_alternatives alternatives gs hgs) hread t
        List.mem_cons_self

theorem element_isRead_of_mem : ∀ gs : List Group, ∀ g ∈ gs, g.element.IsRead
  | [] => by simp
  | g :: gs => List.forall_mem_cons.mpr ⟨g.element_isRead, element_isRead_of_mem gs⟩

theorem element_isRead_of_mem_alternatives :
    ∀ alternatives : List (List Group), ∀ gs ∈ alternatives, ∀ g ∈ gs, g.element.IsRead
  | [] => by simp
  | gs :: alternatives => List.forall_mem_cons.mpr
      ⟨element_isRead_of_mem gs, element_isRead_of_mem_alternatives alternatives⟩

end

theorem compile_isRead {pattern : String} (h : compile pattern = .ok terms) :
    ∀ t ∈ terms, t.IsRead (some .set) := by
  obtain ⟨gs, -, hterms⟩ := bind_eq_ok.mp h
  obtain ⟨result, hread, rfl⟩ := map_eq_ok.mp hterms
  exact readTerms_isRead (element_isRead_of_mem gs) hread

end Reading

section Dropping

variable {context : Context}

-- The term without its own repetition.
def Term.once : Term → Term
  | .repeated term _ => term
  | term => term

mutual

-- The term with alternatives that are not repeated.
def Term.dropIdle : Term → Term
  | .item i => .item i
  | .anyOf alternatives => .anyOf ((dropIdleEach alternatives).map Term.once)
  | .containing term reach shape contents =>
    .containing term.dropIdle reach shape (dropIdleEach contents)
  | .capture term name => .capture term.dropIdle name
  | .negated term => .negated term.dropIdle
  | .repeated term times => .repeated term.dropIdle times

def dropIdleEach : List Term → List Term
  | [] => []
  | term :: terms => term.dropIdle :: dropIdleEach terms

end

theorem dropIdleEach_eq_map (terms : List Term) : dropIdleEach terms = terms.map Term.dropIdle := by
  induction terms with
  | nil => rfl
  | cons term terms ih => rw [dropIdleEach, List.map_cons, ih]

-- What is left stands in sequences. Alternatives lose their own repetitions.
theorem Term.RepeatsIn.dropIdle (h : t.RepeatsIn (· ≠ .set) p) :
    (p ≠ some .alternative → t.dropIdle.RepeatsIn (· = .sequence) p) ∧
      t.dropIdle.once.RepeatsIn (· = .sequence) none := by
  induction h with
  | item p i => exact ⟨fun _ => .item p i, .item none i⟩
  | @anyOf p alternatives _ ih =>
      have hdropped : ∀ t ∈ (dropIdleEach alternatives).map Term.once,
          t.RepeatsIn (· = .sequence) (some .alternative) := by
        rw [dropIdleEach_eq_map, List.map_map, List.forall_mem_map]
        exact fun t ht => (ih t ht).2.of_none _
      rw [Term.dropIdle, Term.once]
      · exact ⟨fun _ => .anyOf p hdropped, .anyOf none hdropped⟩
      · simp
  | @containing p term reach shape contents _ _ ih ihc =>
      have hterm := ih.1 (by simp)
      have hcontents : ∀ t ∈ dropIdleEach contents,
          t.RepeatsIn (· = .sequence) (some shape.content) := by
        rw [dropIdleEach_eq_map, List.forall_mem_map]
        exact fun t ht => (ihc t ht).1 (by cases shape <;> simp [Shape.content])
      rw [Term.dropIdle, Term.once]
      · exact ⟨fun _ => .containing p reach hterm hcontents,
          .containing none reach hterm hcontents⟩
      · simp
  | capture p name _ ih =>
      have hterm := ih.1 (by simp)
      exact ⟨fun _ => .capture p name hterm, .capture none name hterm⟩
  | negated p _ ih =>
      have hterm := ih.1 (by simp)
      exact ⟨fun _ => .negated p hterm, .negated none hterm⟩
  | @repeated place term times hplace _ ih =>
      have hterm := ih.1 (by simp)
      refine ⟨fun halternative => .repeated times ?_ hterm, hterm⟩
      cases place with
      | sequence => rfl
      | set => exact absurd rfl hplace
      | alternative => exact absurd rfl halternative

theorem Term.run_once (context : Context) (t : Term) : t.once.run context = t.run context := by
  cases t with
  | repeated term times => rw [Term.once, Term.run]
  | _ => rfl

theorem Term.repetition?_dropIdle (t : Term) : t.dropIdle.repetition? = t.repetition? := by
  cases t <;> rw [Term.dropIdle] <;> rfl

-- The matcher never looks at what is dropped.
theorem Term.run_dropIdle (context : Context) (t : Term) :
    t.dropIdle.run context = t.run context := by
  induction t with
  | item i => rw [Term.dropIdle]
  | anyOf alternatives ih =>
      rw [Term.dropIdle, Term.run, Term.run, dropIdleEach_eq_map, List.map_map]
      apply runAnyOf_congr
      rw [List.forall₂_map_left_iff, List.forall₂_same]
      exact fun t ht => (Term.run_once context _).trans (ih t ht)
  | containing term reach shape contents ih ihc =>
      have hset : runSet context (dropIdleEach contents) = runSet context contents := by
        apply runSet_congr
        rw [dropIdleEach_eq_map, List.forall₂_map_left_iff, List.forall₂_same]
        exact ihc
      have hsequence (anchored : Bool) :
          runSequence context anchored (dropIdleEach contents) =
            runSequence context anchored contents := by
        apply runSequence_congr
        rw [dropIdleEach_eq_map, List.forall₂_map_left_iff, List.forall₂_same]
        exact fun t ht => ⟨t.repetition?_dropIdle, ihc t ht⟩
      funext n captures
      simp only [Term.dropIdle, Term.run, ih, hset, hsequence]
  | capture term name ih =>
      funext n captures
      rw [Term.dropIdle, Term.run, Term.run, ih]
  | negated term ih =>
      funext n captures
      rw [Term.dropIdle, Term.run, Term.run, ih]
  | repeated term times ih => rw [Term.dropIdle, Term.run, Term.run, ih]

-- Repetitions stand in sequences and in alternatives. Those in alternatives count for nothing:
-- without them the pattern matches as before, and all that are left stand in sequences.
theorem repetitions_of_compile {pattern : String} (h : compile pattern = .ok terms) :
    (∀ p t times, Occurs terms p (.repeated t times) →
        p = some .sequence ∨ p = some .alternative) ∧
      (∀ p t times, Occurs (dropIdleEach terms) p (.repeated t times) → p = some .sequence) ∧
      ∀ context n, matchCaptures context pattern n =
        (captures context (dropIdleEach terms) n).mapError .lookup := by
  have hread := compile_isRead h
  refine ⟨fun p t times ht => ?_, fun p t times ht => ?_, fun context n => ?_⟩
  · obtain ⟨place, rfl, hplace⟩ := ht.exists_allowed hread
    cases place with
    | sequence => exact Or.inl rfl
    | set => exact absurd rfl hplace
    | alternative => exact Or.inr rfl
  · have hdropped : ∀ s ∈ dropIdleEach terms, s.RepeatsIn (· = .sequence) (some .set) := by
      rw [dropIdleEach_eq_map, List.forall_mem_map]
      exact fun s hs => (hread s hs).dropIdle.1 (by simp)
    obtain ⟨place, rfl, hplace⟩ := ht.exists_allowed hdropped
    rw [hplace]
  · have hset : runSet context (dropIdleEach terms) = runSet context terms := by
      apply runSet_congr
      rw [dropIdleEach_eq_map, List.forall₂_map_left_iff, List.forall₂_same]
      exact fun t _ => t.run_dropIdle context
    rw [matchCaptures, h, captures, hset]
    rfl

theorem repetitions_of_compile_choice :
    let pattern := "S > [ ( NP* | PP ) VP* $ ]"
    let noun : Term := .item (.atom (.tag "NP"))
    let verbs : Term := .repeated (.item (.atom (.tag "VP"))) .zeroOrMore
    let terms (first : Term) : List Term := [.containing (.item (.atom (.tag "S"))) .children
      (.sequence true) [.anyOf [first, .item (.atom (.tag "PP"))], verbs]]
    compile pattern = .ok (terms (.repeated noun .zeroOrMore)) ∧
      Occurs (terms noun) (some .sequence) verbs ∧
      (∀ p t times, Occurs (terms noun) p (.repeated t times) → p = some .sequence) ∧
      ∀ context n, matchCaptures context pattern n =
        (captures context (terms noun) n).mapError .lookup := by
  intro pattern noun verbs terms
  have hcompile : compile pattern = .ok (terms (.repeated noun .zeroOrMore)) := by decide +kernel
  obtain ⟨-, hsequence, hmatch⟩ := repetitions_of_compile hcompile
  refine ⟨hcompile, ?_, hsequence, hmatch⟩
  exact .part (.member List.mem_cons_self) (.content _ _ _ (by simp))

-- An alternative may be repeated, but it takes one node only.
theorem exists_repeated_alternative :
    ∃ terms, compile "S > [ ( NP* | PP ) VP ]" = .ok terms ∧
      Occurs terms (some .alternative) (.repeated (.item (.atom (.tag "NP"))) .zeroOrMore) ∧
      ∀ context, matchCaptures context "S > [ ( NP* | PP ) VP ]" (.root (.node "S"
        [.node "NP" [.leaf "a"], .node "NP" [.leaf "b"], .node "VP" [.leaf "c"]])) = .ok none := by
  have hcompile : compile "S > [ ( NP* | PP ) VP ]" = .ok [.containing (.item (.atom (.tag "S")))
      .children (.sequence false)
      [.anyOf [.repeated (.item (.atom (.tag "NP"))) .zeroOrMore, .item (.atom (.tag "PP"))],
        .item (.atom (.tag "VP"))]] := by decide +kernel
  refine ⟨_, hcompile, ?_, fun context => matchCaptures_of_runSet hcompile rfl⟩
  exact .part (.part (.member List.mem_cons_self) (.content _ _ _ List.mem_cons_self))
    (.alternative List.mem_cons_self)

end Dropping

end HeadPercolation.Pattern
