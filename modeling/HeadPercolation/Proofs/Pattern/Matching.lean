import HeadPercolation.Proofs.Pattern.Reading
import HeadPercolation.Proofs.Pattern.Shares
import HeadPercolation.Proofs.Tree.Nodes

namespace HeadPercolation.Pattern

-- The outcome is no error, and it is a match exactly if `p`.
def Decides (outcome : Outcome) (p : Prop) : Prop :=
  ∃ captured, outcome = .ok captured ∧ (captured.isSome ↔ p)

-- A test of nodes that decides whether their trees satisfy `p`, whatever was captured before.
def Tests (test : Node → Captures → Outcome) (p : Tree → Prop) : Prop :=
  ∀ n captures, Decides (test n captures) (p n.tree)

theorem Decides.congr {outcome : Outcome} {p q : Prop} (h : Decides outcome p) (hpq : p ↔ q) :
    Decides outcome q := by
  obtain ⟨captured, ho, hp⟩ := h
  exact ⟨captured, ho, hp.trans hpq⟩

-- Either there is a match and `p`, or there is none and not `p`.
theorem Decides.cases {outcome : Outcome} {p : Prop} (h : Decides outcome p) :
    (∃ captures, outcome = .ok (some captures) ∧ p) ∨ (outcome = .ok none ∧ ¬p) := by
  obtain ⟨captured, ho, hp⟩ := h
  cases captured with
  | none => exact Or.inr ⟨ho, by simpa using hp⟩
  | some captures => exact Or.inl ⟨captures, ho, by simpa using hp⟩

theorem decides_findSomeM? {α : Type} {f : α → Outcome} {p : α → Prop} (xs : List α)
    (h : ∀ x ∈ xs, Decides (f x) (p x)) : Decides (xs.findSomeM? f) (∃ x ∈ xs, p x) := by
  induction xs with
  | nil => exact ⟨none, rfl, by simp⟩
  | cons x xs ih =>
      obtain ⟨captures, hx, hp⟩ | ⟨hx, hp⟩ := (h x (by simp)).cases
      · refine ⟨some captures, ?_, by simp [hp]⟩
        rw [List.findSomeM?_cons, hx]
        rfl
      · obtain ⟨captured, hxs, hiff⟩ := ih fun y hy => h y (List.mem_cons_of_mem _ hy)
        refine ⟨captured, ?_, by simpa [hp] using hiff⟩
        rw [List.findSomeM?_cons, hx]
        exact hxs

theorem Decides.exists_iff {outcome : Outcome} {p : Prop} (h : Decides outcome p) :
    (∃ captures, outcome = .ok (some captures)) ↔ p := by
  obtain ⟨captured, rfl, hp⟩ := h
  rw [← hp]
  cases captured <;> simp

section Shares

variable {p : Tree → Prop}

theorem mem_nodesOf_iff {times : Option Repetition} {ts : List Tree} :
    ts ∈ nodesOf times p ↔ StandsFor times ts.length ∧ ∀ t ∈ ts, p t := by
  have hone : (∃ t, p t ∧ ts = [t]) ↔ ts.length = 1 ∧ ∀ t ∈ ts, p t := by
    rw [List.length_eq_one_iff]
    constructor
    · rintro ⟨t, hp, rfl⟩
      exact ⟨⟨t, rfl⟩, by simpa using hp⟩
    · rintro ⟨⟨t, rfl⟩, hp⟩
      exact ⟨t, hp t List.mem_cons_self, rfl⟩
  cases times with
  | none => exact hone
  | some times =>
      cases times with
      | optional =>
          rw [mem_nodesOf_optional, hone, StandsFor, Nat.le_one_iff_eq_zero_or_eq_one,
            List.length_eq_zero_iff, or_and_right]
          refine or_congr_left (and_iff_left_of_imp ?_).symm
          rintro rfl
          exact List.forall_mem_nil p
      | zeroOrMore => rw [mem_nodesOf_zeroOrMore, StandsFor, true_and]
      | oneOrMore =>
          rw [mem_nodesOf_oneOrMore, ← List.length_pos_iff]
          rfl

-- No share that a term can take is missed, and none is invented.
theorem sharesOf_eq_ok {test : Node → Captures → Outcome} (htest : Tests test p)
    (times : Option Repetition) (nodes : List Node) (captures : Captures) :
    ∃ remainders, sharesOf times test nodes captures = .ok remainders ∧
      ∀ rest, (∃ r ∈ remainders, r.nodes = rest) ↔
        ∃ front, nodes = front ++ rest ∧ front.map (·.tree) ∈ nodesOf times p := by
  have hok (n : Node) (captures : Captures) : ∃ captured, test n captures = .ok captured := by
    obtain ⟨captured, ho, -⟩ := htest n captures
    exact ⟨captured, ho⟩
  have hmatch (n : Node) (captures : Captures) :
      (∃ after, test n captures = .ok (some after)) ↔ p n.tree := (htest n captures).exists_iff
  obtain ⟨remainders, hrem⟩ := exists_sharesOf_eq_ok hok times nodes captures
  have hshares := sharesOf_areShares hrem
  refine ⟨remainders, hrem, fun rest => ?_⟩
  constructor
  · rintro ⟨r, hr, rfl⟩
    obtain ⟨count, hstands, hshare⟩ := (hshares.mem r).mp hr
    obtain ⟨hcount, hp⟩ := (exists_isShare_iff hmatch).mp ⟨r, hshare⟩
    refine ⟨nodes.take count, ?_, mem_nodesOf_iff.mpr ⟨?_, List.forall_mem_map.mpr hp⟩⟩
    · rw [hshare.nodes_eq, List.take_append_drop]
    · rw [List.length_map, List.length_take, Nat.min_eq_left hcount]
      exact hstands
  · rintro ⟨front, rfl, hfront⟩
    obtain ⟨hstands, hp⟩ := mem_nodesOf_iff.mp hfront
    rw [List.length_map] at hstands
    have hlength : front.length ≤ (front ++ rest).length := by simp
    obtain ⟨r, hshare⟩ := (exists_isShare_iff hmatch).mpr ⟨hlength, by simpa using hp⟩
    refine ⟨r, (hshares.mem r).mpr ⟨front.length, hstands, hshare⟩, ?_⟩
    rw [hshare.nodes_eq, List.drop_left]

end Shares

section Runs

variable {context : Context}

-- The lists that are tried are those that the reading offers.
theorem exists_mem_lists_iff {n : Node} {reach : Reach} {p : List Tree → Prop} :
    (∃ nodes ∈ reach.lists n, p (nodes.map (·.tree))) ↔
      ∃ nodes, reach.Offers n.tree nodes ∧ p nodes := by
  cases reach with
  | children => simp [Reach.lists, Reach.Offers]
  | anywhere =>
      simp only [Reach.lists, List.mem_map, exists_exists_and_eq_and, Reach.Offers,
        Node.map_tree_children]
      constructor
      · rintro ⟨m, hm, hp⟩
        obtain ⟨way, -, hget⟩ := Node.mem_below.mp hm
        exact ⟨_, ⟨way, m.tree, hget, rfl⟩, hp⟩
      · rintro ⟨nodes, ⟨way, s, hget, rfl⟩, hp⟩
        exact ⟨⟨n.path ++ way, s⟩, Node.mem_below.mpr ⟨way, rfl, hget⟩, hp⟩

theorem Answer.holds_eq_ok {answer : Answer} (h : answer.IsText) (name : String) (t : Tree) :
    ∃ value, answer.holds name t = .ok value ∧ (value = true ↔ answer.Says t) := by
  cases answer with
  | text value =>
      have hitem : Token.ofText value = .item value := h
      refine ⟨(Atom.ofText value).holds t, ?_, Iff.rfl⟩
      simp only [Answer.holds, Answer.atom, hitem]
      rfl
  | truth value => exact False.elim h
  | nothing => exact False.elim h
  | other => exact False.elim h

theorem Macro.holds_eq_ok {m : Macro} (h : m.IsSound) (name : String) (t : Tree) :
    ∃ value, m.holds name t = .ok value ∧ (value = true ↔ (m.answer t).Says t) := by
  cases m with
  | constant answer => exact Answer.holds_eq_ok h name t
  | test answer =>
      obtain ⟨value, hvalue⟩ | htext := h t
      · refine ⟨value, by simp only [Macro.holds, hvalue], ?_⟩
        simp [Macro.answer, hvalue, Answer.Says]
      · obtain ⟨value, hok, hiff⟩ := Answer.holds_eq_ok htext name t
        refine ⟨value, ?_, hiff⟩
        rw [← hok, Macro.holds]
        cases hanswer : answer t with
        | truth value =>
            rw [hanswer] at htext
            exact False.elim htext
        | text value => rfl
        | nothing => rfl
        | other => rfl

theorem Item.holds_eq_ok {i : Item} (h : context.Supports (Term.item i).macros) (t : Tree) :
    ∃ value, i.holds context t = .ok value ∧ (value = true ↔ i.Holds context t) := by
  cases i with
  | atom a => exact ⟨a.holds t, rfl, Iff.rfl⟩
  | named name =>
      obtain ⟨m, hm, hsound⟩ := h name (by simp [Term.macros])
      obtain ⟨value, hok, hiff⟩ := Macro.holds_eq_ok hsound name t
      exact ⟨value, by simp only [Item.holds, hm, hok], by simp [Item.Holds, hm, hiff]⟩

theorem runAnyOf_eq (alternatives : List Term) (n : Node) (captures : Captures) :
    runAnyOf context alternatives n captures =
      alternatives.findSomeM? fun term => term.run context n captures := by
  induction alternatives with
  | nil => rfl
  | cons term terms ih =>
      simp only [runAnyOf, List.findSomeM?_cons, ih]
      cases term.run context n captures with
      | error e => rfl
      | ok outcome => cases outcome <;> rfl

theorem runAnyOf_decides {alternatives : List Term}
    (h : ∀ term ∈ alternatives, Tests (term.run context) (term.Holds context)) :
    Tests (runAnyOf context alternatives) fun t => ∃ term ∈ alternatives, term.Holds context t := by
  intro n captures
  rw [runAnyOf_eq]
  exact decides_findSomeM? alternatives fun term hm => h term hm n captures

theorem runSet_decides {terms : List Term}
    (h : ∀ term ∈ terms, Tests (term.run context) (term.Holds context)) (nodes : List Node)
    (captures : Captures) :
    Decides (runSet context terms nodes captures)
      (∀ term ∈ terms, ∃ n ∈ nodes, term.Holds context n.tree) := by
  induction terms generalizing captures with
  | nil => exact ⟨some captures, rfl, by simp⟩
  | cons term terms ih =>
      have hfind := decides_findSomeM? nodes fun n _ => h term (by simp) n captures
      obtain ⟨after, hn, hp⟩ | ⟨hn, hp⟩ := hfind.cases
      · obtain ⟨captured, hrest, hiff⟩ :=
          ih (fun term hm => h term (List.mem_cons_of_mem _ hm)) after
        refine ⟨captured, ?_, ?_⟩
        · simp only [runSet, hn]
          exact hrest
        · rw [hiff, List.forall_mem_cons, and_iff_right hp]
      · refine ⟨none, ?_, ?_⟩
        · simp only [runSet, hn]
          rfl
        · rw [List.forall_mem_cons]
          simp [hp]

-- The regular expression that the terms of a sequence make up.
def languageOf (context : Context) (terms : List Term) : Language Tree :=
  (terms.map fun c => nodesOf c.repetition? fun s => c.Holds context s).prod

theorem runSequence_decides {terms : List Term} (anchored : Bool)
    (h : ∀ term ∈ terms, Tests (term.run context) (term.Holds context)) (nodes : List Node)
    (captures : Captures) :
    Decides (runSequence context anchored terms nodes captures)
      (∃ front rest, nodes.map (·.tree) = front ++ rest ∧ (anchored → rest = []) ∧
        front ∈ languageOf context terms) := by
  induction terms generalizing nodes captures with
  | nil =>
      refine ⟨if anchored && !nodes.isEmpty then none else some captures, rfl, ?_⟩
      simp only [languageOf, List.map_nil, List.prod_nil, Language.mem_one]
      constructor
      · intro hsome
        refine ⟨[], nodes.map (·.tree), rfl, ?_, rfl⟩
        cases anchored <;> cases nodes <;> simp_all
      · rintro ⟨front, rest, heq, hrest, rfl⟩
        cases anchored <;> cases nodes <;> simp_all
  | cons term terms ih =>
      obtain ⟨remainders, hok, hrem⟩ :=
        sharesOf_eq_ok (h term List.mem_cons_self) term.repetition? nodes captures
      have hrest := decides_findSomeM? remainders fun r _ =>
        ih (fun term hm => h term (List.mem_cons_of_mem _ hm)) r.nodes r.captures
      have hrun : runSequence context anchored (term :: terms) nodes captures =
          remainders.findSomeM? fun r => runSequence context anchored terms r.nodes r.captures := by
        simp only [runSequence, hok]
        rfl
      rw [hrun]
      refine hrest.congr ?_
      simp only [languageOf, List.map_cons, List.prod_cons, Language.mem_mul]
      constructor
      · rintro ⟨r, hr, back, rest, heq, hanchored, hback⟩
        obtain ⟨front, rfl, hfront⟩ := (hrem r.nodes).mp ⟨r, hr, rfl⟩
        refine ⟨front.map (·.tree) ++ back, rest, by simp [heq], hanchored, ?_⟩
        exact ⟨_, hfront, back, hback, rfl⟩
      · rintro ⟨-, rest, heq, hanchored, front, hfront, back, hback, rfl⟩
        rw [List.append_assoc] at heq
        obtain ⟨first, others, rfl, rfl, hothers⟩ := List.map_eq_append_iff.mp heq
        obtain ⟨r, hr, rfl⟩ := (hrem others).mpr ⟨first, rfl, hfront⟩
        exact ⟨r, hr, back, rest, hothers, hanchored, hback⟩

theorem Context.Supports.mono {names others : List String} (h : context.Supports names)
    (hsub : others ⊆ names) : context.Supports others :=
  fun name hn => h name (hsub hn)

-- Running a term says what its reading says, whatever was captured before.
theorem Term.run_decides {term : Term} (h : context.Supports term.macros) :
    Tests (term.run context) (term.Holds context) := by
  induction term with
  | item i =>
      intro n captures
      obtain ⟨value, hok, hiff⟩ := Item.holds_eq_ok h n.tree
      refine ⟨if value then some captures else none, ?_, ?_⟩
      · simp only [Term.run, hok]
        rfl
      · rw [Term.Holds, ← hiff]
        cases value <;> simp
  | anyOf alternatives ih =>
      intro n captures
      refine (runAnyOf_decides (fun term hm => ih term hm ?_) n captures).congr ?_
      · exact Context.Supports.of_mem h hm
      · rw [Term.Holds]
        simp only [exists_prop]
  | containing term reach shape contents ih ihc =>
      intro n captures
      have hterm : context.Supports term.macros := h.mono (List.subset_append_left _ _)
      have hcontents : ∀ c ∈ contents, Tests (c.run context) (c.Holds context) := fun c hm =>
        ihc c hm (Context.Supports.of_mem (h.mono (List.subset_append_right _ _)) hm)
      obtain ⟨after, hn, hp⟩ | ⟨hn, hp⟩ := (ih hterm n captures).cases
      · rw [Term.Holds]
        cases shape with
        | set =>
            have hfind := decides_findSomeM? (reach.lists n) fun nodes _ =>
              runSet_decides hcontents nodes after
            obtain ⟨captured, hok, hiff⟩ := hfind
            refine ⟨captured, ?_, ?_⟩
            · simp only [Term.run, hn]
              exact hok
            · rw [hiff, and_iff_right hp, ← exists_mem_lists_iff]
              simp only [List.mem_map, exists_exists_and_eq_and]
        | sequence anchored =>
            have hfind := decides_findSomeM? (reach.lists n) fun nodes _ =>
              runSequence_decides anchored hcontents nodes after
            obtain ⟨captured, hok, hiff⟩ := hfind
            refine ⟨captured, ?_, ?_⟩
            · simp only [Term.run, hn]
              exact hok
            · rw [hiff, and_iff_right hp, ← exists_mem_lists_iff]
              rfl
      · refine ⟨none, ?_, ?_⟩
        · simp only [Term.run, hn]
          rfl
        · rw [Term.Holds]
          simp [hp]
  | capture term name ih =>
      intro n captures
      obtain ⟨captured, hok, hiff⟩ := ih h n captures
      refine ⟨captured.map ((name, n) :: ·), ?_, ?_⟩
      · simp only [Term.run, hok]
        rfl
      · rw [Option.isSome_map, Term.Holds, hiff]
  | negated term ih =>
      intro n captures
      obtain ⟨captured, hok, hiff⟩ := ih h n captures
      refine ⟨if captured.isSome then none else some captures, ?_, ?_⟩
      · simp only [Term.run, hok]
        rfl
      · rw [Term.Holds, ← hiff]
        cases captured <;> simp
  | repeated term times ih =>
      intro n captures
      refine (ih h n captures).congr ?_
      rw [Term.Holds]

end Runs

theorem matchCaptures_of_compile_eq_error {pattern : String} {e : FormError}
    (h : compile pattern = .error e) (context : Context) (n : Node) :
    matchCaptures context pattern n = .error (.form e) := by
  rw [matchCaptures, h]
  rfl

theorem matchCaptures_of_runSet {context : Context} {pattern : String} {terms : List Term}
    {n : Node} {captured : Option Captures} (hcompile : compile pattern = .ok terms)
    (hrun : runSet context terms [n] [] = .ok captured) :
    matchCaptures context pattern n = .ok captured := by
  rw [matchCaptures, hcompile]
  change (runSet context terms [n] []).mapError Error.lookup = .ok captured
  rw [hrun]
  rfl

theorem runSet_single {context : Context} {term : Term} {n : Node} {captures : Captures} :
    runSet context [term] [n] captures = term.run context n captures := by
  simp only [runSet, findSomeM?_singleton]
  cases term.run context n captures with
  | error e => rfl
  | ok found => cases found <;> rfl

theorem matchCaptures_atom {pattern : String} {atom : Atom}
    (h : compile pattern = .ok [.item (.atom atom)]) (context : Context) (n : Node) :
    matchCaptures context pattern n = .ok (if atom.holds n.tree then some [] else none) := by
  apply matchCaptures_of_runSet h
  rw [runSet_single]
  rfl

-- A pattern that compiles matches a node exactly if each of its terms, by its reading, holds of
-- the node. The match fails with an error for no node if the names of the pattern have meanings.
theorem matchCaptures_isSome_iff {context : Context} {pattern : String} {terms : List Term}
    (hcompile : compile pattern = .ok terms) (hnames : context.Supports (macrosOf terms))
    (n : Node) :
    ∃ captured, matchCaptures context pattern n = .ok captured ∧
      (captured.isSome ↔ ∀ term ∈ terms, term.Holds context n.tree) := by
  have hterms : ∀ term ∈ terms, Tests (term.run context) (term.Holds context) := fun term hm =>
    Term.run_decides (hnames.of_mem hm)
  obtain ⟨captured, hok, hiff⟩ := runSet_decides hterms [n] []
  exact ⟨captured, matchCaptures_of_runSet hcompile hok, by simpa using hiff⟩

theorem matchCaptures_isSome_iff_complement :
    let pattern := "VP >> [ .? %verb !( NP | PP )+ $ ]"
    let terms : List Term := [
      .containing (.item (.atom (.tag "VP"))) .anywhere (.sequence true) [
        .repeated (.item (.atom .any)) .optional,
        .item (.named "verb"),
        .repeated (.negated (.anyOf [.item (.atom (.tag "NP")), .item (.atom (.tag "PP"))]))
          .oneOrMore]]
    let context : Context := fun _ => some (.constant (.text "VBZ"))
    let n : Node := .root (.node "VP" [.node "VBZ" [.leaf "is"], .node "ADJP" [.leaf "big"]])
    compile pattern = .ok terms ∧ context.Supports (macrosOf terms) ∧
      ∃ captured, matchCaptures context pattern n = .ok captured ∧
        (captured.isSome ↔ ∀ term ∈ terms, term.Holds context n.tree) := by
  intro pattern terms context n
  have hcompile : compile pattern = .ok terms := by decide +kernel
  have hnames : context.Supports (macrosOf terms) := fun _ _ => ⟨_, rfl, rfl⟩
  exact ⟨hcompile, hnames, matchCaptures_isSome_iff hcompile hnames n⟩

end HeadPercolation.Pattern
