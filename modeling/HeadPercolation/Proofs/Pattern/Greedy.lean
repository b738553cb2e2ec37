import HeadPercolation.Proofs.Pattern.Captured
import Mathlib.Data.Nat.SuccPred
import Mathlib.Order.SuccPred.Archimedean

namespace HeadPercolation.Pattern

-- The outcome is no error, and a match with exactly the captures that satisfy `p`, if any do.
def Gives (outcome : Outcome) (p : Captures → Prop) : Prop :=
  ∃ captured, outcome = .ok captured ∧ ∀ captures, captured = some captures ↔ p captures

section Gives

variable {outcome : Outcome} {p q : Captures → Prop}

theorem Gives.congr (h : Gives outcome p) (hpq : ∀ captures, p captures ↔ q captures) :
    Gives outcome q := by
  obtain ⟨captured, hok, hp⟩ := h
  exact ⟨captured, hok, fun captures => (hp captures).trans (hpq captures)⟩

theorem Gives.cases (h : Gives outcome p) :
    (outcome = .ok none ∧ ∀ captures, ¬p captures) ∨
      ∃ captures, outcome = .ok (some captures) ∧ ∀ others, p others ↔ others = captures := by
  obtain ⟨captured, hok, hp⟩ := h
  cases captured with
  | none => exact Or.inl ⟨hok, fun captures hc => nomatch (hp captures).mpr hc⟩
  | some captures =>
      refine Or.inr ⟨captures, hok, fun others => ?_⟩
      rw [← hp others, Option.some.injEq, eq_comm]

theorem gives_none (h : ∀ captures, ¬p captures) : Gives (.ok none) p :=
  ⟨none, rfl, fun captures => ⟨(nomatch ·), fun hc => absurd hc (h captures)⟩⟩

theorem gives_some {captures : Captures} (h : ∀ others, p others ↔ others = captures) :
    Gives (.ok (some captures)) p :=
  ⟨some captures, rfl, fun others => by rw [h others, Option.some.injEq, eq_comm]⟩

end Gives

-- A match of the term at a node adds these captures, whatever was captured before.
def Term.Adds (context : Context) (term : Term) (entries : Node → Captures) : Prop :=
  ∀ n before after, term.run context n before = .ok (some after) → after = entries n ++ before

-- The term stands for one node and holds of those that satisfy `p`.
structure Term.Reads (context : Context) (term : Term) (p : Tree → Prop) : Prop where
  once : term.repetition? = none
  holds : ∀ t, term.Holds context t ↔ p t
  names : context.Supports term.macros

-- Such a term with these captures.
structure Term.Takes (context : Context) (term : Term) (p : Tree → Prop)
    (entries : Node → Captures) : Prop extends term.Reads context p where
  adds : term.Adds context entries

-- Such a term that captures nothing.
structure Term.Says (context : Context) (term : Term) (p : Tree → Prop) : Prop
    extends term.Reads context p where
  silent : ∀ n entry, ¬term.MayCapture n entry

section Terms

variable {context : Context} {term : Term} {p q : Tree → Prop} {entries : Node → Captures}

theorem Term.adds_nil (h : ∀ n entry, ¬term.MayCapture n entry) :
    term.Adds context fun _ => [] := by
  intro n before after hrun
  obtain ⟨taken, rfl, htaken⟩ := Term.run_extends hrun
  have hnone : taken = [] :=
    List.eq_nil_iff_forall_not_mem.mpr fun entry he => h n entry (htaken entry he)
  rw [hnone]

theorem Term.Adds.capture (h : term.Adds context entries) (name : String) :
    (term.capture name).Adds context fun n => (name, n) :: entries n := by
  intro n before after hrun
  rw [Term.run] at hrun
  obtain ⟨outcome, hinner, hrun⟩ := bind_eq_ok.mp hrun
  cases outcome with
  | none => cases hrun
  | some taken =>
      cases hrun
      rw [h n before taken hinner, List.cons_append]

theorem Term.adds_anyOf {alternatives : List Term}
    (h : ∀ term ∈ alternatives, term.Adds context entries) :
    (Term.anyOf alternatives).Adds context entries := by
  intro n before after hrun
  rw [Term.run, runAnyOf_eq] at hrun
  obtain ⟨term, hterm, hrun⟩ := exists_of_findSomeM?_eq_ok hrun
  exact h term hterm n before after hrun

-- Running such a term gives its captures if the node satisfies `p`.
theorem Term.Takes.gives (h : term.Takes context p entries) (n : Node) (before : Captures) :
    Gives (term.run context n before) fun after => p n.tree ∧ after = entries n ++ before := by
  obtain ⟨after, hrun, hholds⟩ | ⟨hrun, hholds⟩ := (Term.run_decides h.names n before).cases
  · rw [hrun]
    have hp := (h.holds n.tree).mp hholds
    exact gives_some fun others => by rw [and_iff_right hp, h.adds n before after hrun]
  · rw [hrun]
    exact gives_none fun others hc => hholds ((h.holds n.tree).mpr hc.1)

theorem Term.Reads.congr (h : term.Reads context p) (hpq : ∀ t, p t ↔ q t) :
    term.Reads context q :=
  ⟨h.once, fun t => (h.holds t).trans (hpq t), h.names⟩

theorem Term.Takes.congr (h : term.Takes context p entries) (hpq : ∀ t, p t ↔ q t) :
    term.Takes context q entries :=
  ⟨h.toReads.congr hpq, h.adds⟩

theorem Term.Says.congr (h : term.Says context p) (hpq : ∀ t, p t ↔ q t) : term.Says context q :=
  ⟨h.toReads.congr hpq, h.silent⟩

theorem Term.Says.takes (h : term.Says context p) : term.Takes context p fun _ => [] :=
  ⟨h.toReads, Term.adds_nil h.silent⟩

theorem Term.Says.capture (h : term.Says context p) (name : String) :
    (term.capture name).Takes context p fun n => [(name, n)] where
  once := rfl
  holds t := by rw [Term.Holds, h.holds]
  adds := h.takes.adds.capture name
  names := h.names

theorem Term.Says.negated (h : term.Says context p) :
    (Term.negated term).Says context fun t => ¬p t where
  once := rfl
  holds t := by rw [Term.Holds, h.holds]
  silent _ _ := by simp [Term.MayCapture]
  names := h.names

theorem Term.Takes.or {other : Term} (h : term.Takes context p entries)
    (hother : other.Takes context q entries) :
    (Term.anyOf [term, other]).Takes context (fun t => p t ∨ q t) entries where
  once := rfl
  holds t := by simp [Term.Holds, h.holds, hother.holds]
  adds := Term.adds_anyOf (by simp [h.adds, hother.adds])
  names name hname := by
    rw [Term.macros, mem_macrosOf] at hname
    obtain ⟨alternative, hmem, hname⟩ := hname
    rcases List.mem_pair.mp hmem with rfl | rfl
    · exact h.names name hname
    · exact hother.names name hname

theorem says_atom (a : Atom) : (Term.item (.atom a)).Says context fun t => a.holds t = true where
  once := rfl
  holds t := by rw [Term.Holds, Item.Holds]
  silent _ _ := by simp [Term.MayCapture]
  names := by simp [Term.macros, Context.Supports]

end Terms

section Sequences

variable {context : Context} {anchored : Bool} {term : Term} {terms : List Term}
  {p : Tree → Prop} {entries : Node → Captures} {nodes : List Node} {captures : Captures}

theorem runSequence_star_nil :
    runSequence context anchored (.repeated term .zeroOrMore :: terms) [] captures =
      runSequence context anchored terms [] captures :=
  findSomeM?_singleton _ _

-- A repeated term first takes a node and goes on. Only if nothing comes of that, it leaves the
-- node to the terms after it.
theorem runSequence_star_cons (n : Node) (ns : List Node) :
    runSequence context anchored (.repeated term .zeroOrMore :: terms) (n :: ns) captures = (do
      match ← term.run context n captures with
      | none => runSequence context anchored terms (n :: ns) captures
      | some taken =>
        match ← runSequence context anchored (.repeated term .zeroOrMore :: terms) ns taken with
        | some after => return some after
        | none => runSequence context anchored terms (n :: ns) captures) := by
  simp only [runSequence, Term.repetition?, sharesOf, shares, Term.run]
  cases term.run context n captures with
  | error e => rfl
  | ok outcome =>
      cases outcome with
      | none => exact findSomeM?_singleton _ _
      | some taken =>
          simp only [bind, Except.bind, pure, Except.pure]
          cases shares (term.run context) ns taken with
          | error e => rfl
          | ok remainders =>
              simp only [findSomeM?_append, findSomeM?_singleton]
              cases remainders.findSomeM? fun r =>
                  runSequence context anchored terms r.nodes r.captures with
              | error e => rfl
              | ok found => cases found <;> rfl

theorem runSequence_once_nil (honce : term.repetition? = none) :
    runSequence context anchored (term :: terms) [] captures = .ok none := by
  rw [runSequence, honce]
  rfl

theorem runSequence_once_cons (honce : term.repetition? = none) (n : Node) (ns : List Node) :
    runSequence context anchored (term :: terms) (n :: ns) captures = (do
      match ← term.run context n captures with
      | none => return none
      | some taken => runSequence context anchored terms ns taken) := by
  simp only [runSequence, honce, sharesOf, oneShare]
  cases term.run context n captures with
  | error e => rfl
  | ok outcome =>
      cases outcome with
      | none => rfl
      | some taken => exact findSomeM?_singleton _ _

-- A term that takes one node, and then the terms after it.
theorem runSequence_once_gives {q : Node → Captures → Prop} {i : Nat}
    (hterm : term.Takes context p entries)
    (hrest : ∀ n, Gives
      (runSequence context anchored terms (nodes.drop (i + 1)) (entries n ++ captures)) (q n)) :
    Gives (runSequence context anchored (term :: terms) (nodes.drop i) captures)
      fun after => ∃ n, nodes[i]? = some n ∧ p n.tree ∧ q n after := by
  by_cases hlt : i < nodes.length
  · rw [List.drop_eq_getElem_cons hlt, runSequence_once_cons hterm.once]
    simp only [List.getElem?_eq_getElem hlt, Option.some.injEq, exists_eq_left']
    obtain ⟨hrun, hnone⟩ | ⟨after, hrun, hsome⟩ := (hterm.gives nodes[i] captures).cases
    · rw [bind_of_eq_ok hrun]
      exact gives_none fun after hp => hnone _ ⟨hp.1, rfl⟩
    · obtain ⟨hp, rfl⟩ := (hsome after).mpr rfl
      rw [bind_of_eq_ok hrun]
      exact (hrest nodes[i]).congr fun after => by rw [and_iff_right hp]
  · rw [List.drop_eq_nil_of_le (Nat.le_of_not_lt hlt), runSequence_once_nil hterm.once]
    apply gives_none
    rintro after ⟨n, hn, -⟩
    exact hlt (List.getElem?_eq_some_iff.mp hn).1

theorem runSequence_nil_gives :
    Gives (runSequence context false [] nodes captures) fun after => after = captures :=
  gives_some fun _ => Iff.rfl

-- A repeated term that captures nothing takes the next node if what follows can hold then.
theorem runSequence_star_gives {q r : Captures → Prop} {n : Node} {ns : List Node}
    (hterm : term.Says context p)
    (htake : Gives
      (runSequence context anchored (.repeated term .zeroOrMore :: terms) ns captures) q)
    (hleave : Gives (runSequence context anchored terms (n :: ns) captures) r) :
    Gives (runSequence context anchored (.repeated term .zeroOrMore :: terms) (n :: ns) captures)
      fun after => (p n.tree ∧ q after) ∨ (¬(p n.tree ∧ ∃ others, q others) ∧ r after) := by
  rw [runSequence_star_cons]
  obtain ⟨hrun, hnone⟩ | ⟨taken, hrun, hsome⟩ := (hterm.takes.gives n captures).cases
  · have hp : ¬p n.tree := fun hp => hnone _ ⟨hp, rfl⟩
    rw [bind_of_eq_ok hrun]
    exact hleave.congr fun after => by simp [hp]
  · obtain ⟨hp, htaken⟩ := (hsome taken).mpr rfl
    rw [List.nil_append] at htaken
    subst htaken
    rw [bind_of_eq_ok hrun]
    obtain ⟨hns, hnone⟩ | ⟨after, hns, hafter⟩ := htake.cases
    · simp only [hns]
      exact hleave.congr fun after => by simp [hp, hnone]
    · simp only [hns]
      exact gives_some fun others => by simp [hp, hafter]

-- At the end of a sequence it takes all nodes that are left.
theorem runSequence_all_gives (hterm : term.Says context p) :
    Gives (runSequence context true [.repeated term .zeroOrMore] nodes captures)
      fun after => (∀ n ∈ nodes, p n.tree) ∧ after = captures := by
  induction nodes with
  | nil =>
      rw [runSequence_star_nil]
      exact gives_some fun after => by simp
  | cons n ns ih =>
      have hleft : Gives (runSequence context true [] (n :: ns) captures) fun _ => False :=
        gives_none fun _ => not_false
      refine (runSequence_star_gives hterm ih hleft).congr fun after => ?_
      simp only [List.forall_mem_cons, and_false, or_false, and_assoc]

theorem exists_last {p : Nat → Prop} {bound i j : Nat} (hbound : ∀ j, p j → j < bound)
    (hij : i ≤ j) (hj : p j) : ∃ k, IsGreatest {k | i ≤ k ∧ p k} k := by
  have habove : BddAbove {k | i ≤ k ∧ p k} := ⟨bound, fun k hk => (hbound k hk.2).le⟩
  exact habove.exists_isGreatest_of_nonempty ⟨j, hij, hj⟩

-- The last place from `i` on comes after `i`, unless there is none but `i`.
theorem isGreatest_from_iff {p : Nat → Prop} {i j : Nat} :
    IsGreatest {k | i ≤ k ∧ p k} j ↔
      IsGreatest {k | i + 1 ≤ k ∧ p k} j ∨ (¬∃ k, i + 1 ≤ k ∧ p k) ∧ p i ∧ j = i := by
  constructor
  · rintro ⟨⟨hij, hj⟩, hlast⟩
    rcases Nat.eq_or_lt_of_le hij with rfl | hlt
    · refine Or.inr ⟨?_, hj, rfl⟩
      rintro ⟨k, hk, hpk⟩
      exact absurd (hlast ⟨Nat.le_of_succ_le hk, hpk⟩) (Nat.not_le.mpr hk)
    · exact Or.inl ⟨⟨hlt, hj⟩, fun k hk => hlast ⟨Nat.le_of_succ_le hk.1, hk.2⟩⟩
  · rintro (⟨⟨hij, hj⟩, hlast⟩ | ⟨hnone, hi, rfl⟩)
    · refine ⟨⟨Nat.le_of_succ_le hij, hj⟩, ?_⟩
      rintro k ⟨hik, hk⟩
      rcases Nat.eq_or_lt_of_le hik with rfl | hlt
      · exact Nat.le_of_succ_le hij
      · exact hlast ⟨hlt, hk⟩
    · refine ⟨⟨Nat.le_refl j, hi⟩, ?_⟩
      rintro k ⟨hik, hk⟩
      exact Nat.le_of_not_lt fun hlt => hnone ⟨k, hlt, hk⟩

-- To ask for the last place from `i` on is to ask for the last one of all.
theorem isGreatest_beyond_iff {p : Nat → Prop} {i j : Nat} :
    IsGreatest {k | i ≤ k ∧ p k} j ↔ (∃ k, i ≤ k ∧ p k) ∧ IsGreatest {k | p k} j := by
  constructor
  · rintro ⟨⟨hij, hj⟩, hlast⟩
    refine ⟨⟨j, hij, hj⟩, hj, fun k hk => ?_⟩
    rcases Nat.le_total i k with hik | hki
    · exact hlast ⟨hik, hk⟩
    · exact hki.trans hij
  · rintro ⟨⟨k, hik, hk⟩, hj, hlast⟩
    exact ⟨⟨hik.trans (hlast hk), hj⟩, fun m hm => hlast hm.2⟩

theorem isGreatest_and_iff {a : Prop} {p : Nat → Prop} {j : Nat} :
    IsGreatest {k | a ∧ p k} j ↔ a ∧ IsGreatest {k | p k} j := by
  constructor
  · rintro ⟨⟨ha, hj⟩, hlast⟩
    exact ⟨ha, hj, fun k hk => hlast ⟨ha, hk⟩⟩
  · rintro ⟨ha, hj, hlast⟩
    exact ⟨⟨ha, hj⟩, fun k hk => hlast hk.2⟩

-- Nodes are left out before the terms that follow, as many as possible.
theorem runSequence_gap_gives {q : Nat → Captures → Prop} {i : Nat}
    (hrest : ∀ j, Gives (runSequence context anchored terms (nodes.drop j) captures) (q j))
    (hbound : ∀ j, (∃ after, q j after) → j < nodes.length) :
    Gives (runSequence context anchored
        (.repeated (.item (.atom .any)) .zeroOrMore :: terms) (nodes.drop i) captures)
      fun after => ∃ j, IsGreatest {j | i ≤ j ∧ ∃ after, q j after} j ∧ q j after := by
  induction hleft : nodes.length - i generalizing i with
  | zero =>
      have hle : nodes.length ≤ i := by omega
      have hnone := hrest i
      rw [List.drop_eq_nil_of_le hle] at hnone ⊢
      rw [runSequence_star_nil]
      refine hnone.congr fun after => ⟨fun hp => ?_, ?_⟩
      · have := hbound i ⟨after, hp⟩
        omega
      · rintro ⟨j, hj, hp⟩
        have := hbound j ⟨after, hp⟩
        have := hj.1.1
        omega
  | succ left ih =>
      have hlt : i < nodes.length := by omega
      have hleave := hrest i
      have htake := ih (i := i + 1) (by omega)
      rw [List.drop_eq_getElem_cons hlt] at hleave ⊢
      refine (runSequence_star_gives (says_atom .any) htake hleave).congr fun after => ?_
      have hsome : (∃ others j, IsGreatest {j | i + 1 ≤ j ∧ ∃ after, q j after} j ∧ q j others) ↔
          ∃ j, i + 1 ≤ j ∧ ∃ after, q j after := by
        constructor
        · rintro ⟨others, j, ⟨hj, -⟩, -⟩
          exact ⟨j, hj⟩
        · rintro ⟨j, hij, hj⟩
          obtain ⟨k, hk⟩ := exists_last hbound hij hj
          obtain ⟨others, hothers⟩ := hk.1.2
          exact ⟨others, k, hk, hothers⟩
      rw [hsome]
      simp only [Atom.holds, true_and, isGreatest_from_iff (i := i)]
      constructor
      · rintro (⟨j, hj, hp⟩ | ⟨hnone, hp⟩)
        · exact ⟨j, Or.inl hj, hp⟩
        · exact ⟨i, Or.inr ⟨hnone, ⟨after, hp⟩, rfl⟩, hp⟩
      · rintro ⟨j, hj | ⟨hnone, -, rfl⟩, hp⟩
        · exact Or.inl ⟨j, hj, hp⟩
        · exact Or.inr ⟨hnone, hp⟩

-- If no capture depends on how many of them are left out, it only matters that it can be done.
theorem runSequence_skip_gives {p : Nat → Prop} {q : Captures → Prop} {i : Nat}
    (hrest : ∀ j, Gives (runSequence context anchored terms (nodes.drop j) captures)
      fun after => p j ∧ q after)
    (hbound : ∀ j, p j → j < nodes.length) :
    Gives (runSequence context anchored
        (.repeated (.item (.atom .any)) .zeroOrMore :: terms) (nodes.drop i) captures)
      fun after => (∃ j, i ≤ j ∧ p j) ∧ q after := by
  have hlast := runSequence_gap_gives (i := i) hrest fun j ⟨_, hp, _⟩ => hbound j hp
  refine hlast.congr fun after => ?_
  constructor
  · rintro ⟨j, hj, hp, hq⟩
    exact ⟨⟨j, hj.1.1, hp⟩, hq⟩
  · rintro ⟨⟨j, hij, hp⟩, hq⟩
    have hbound' : ∀ j, (∃ after, p j ∧ q after) → j < nodes.length :=
      fun j ⟨_, hp, _⟩ => hbound j hp
    obtain ⟨k, hk⟩ := exists_last hbound' hij ⟨after, hp, hq⟩
    obtain ⟨-, hpk, -⟩ := hk.1.2
    exact ⟨k, hk, hpk, hq⟩

end Sequences

section Patterns

variable {context : Context} {term : Term} {entries : Node → Captures} {contents : List Term}
  {p : Tree → Prop} {q : Captures → Prop} {n : Node} {captures : Captures}

theorem run_containing_gives {anchored : Bool} (hterm : term.Takes context p entries)
    (hcontents : Gives
      (runSequence context anchored contents n.children (entries n ++ captures)) q) :
    Gives ((Term.containing term .children (.sequence anchored) contents).run context n captures)
      fun after => p n.tree ∧ q after := by
  simp only [Term.run, Reach.lists, findSomeM?_singleton]
  obtain ⟨hrun, hnone⟩ | ⟨after, hrun, hsome⟩ := (hterm.gives n captures).cases
  · rw [bind_of_eq_ok hrun]
    exact gives_none fun after hp => hnone _ ⟨hp.1, rfl⟩
  · obtain ⟨hp, rfl⟩ := (hsome after).mpr rfl
    rw [bind_of_eq_ok hrun]
    exact hcontents.congr fun after => by rw [and_iff_right hp]

-- Matching a node against a pattern of a single term.
theorem matchCaptures_gives {pattern : String} (hcompile : compile pattern = .ok [term])
    (h : Gives (term.run context n []) q) :
    ∃ captured, matchCaptures context pattern n = .ok captured ∧
      ∀ captures, captured = some captures ↔ q captures := by
  obtain ⟨captured, hok, hq⟩ := h
  refine ⟨captured, matchCaptures_of_runSet hcompile ?_, hq⟩
  rw [runSet_single, hok]

end Patterns

end HeadPercolation.Pattern
