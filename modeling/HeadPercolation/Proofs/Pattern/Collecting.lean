import HeadPercolation.Proofs.Pattern.Assignment
import HeadPercolation.Proofs.Tree.Leaves

namespace HeadPercolation.Pattern

mutual

-- The names by which a term captures nodes. Nothing under a negation is captured.
def Term.captureNames : Term → List String
  | .item _ => []
  | .anyOf alternatives => captureNamesOf alternatives
  | .containing term _ _ contents => term.captureNames ++ captureNamesOf contents
  | .capture term name => name :: term.captureNames
  | .negated _ => []
  | .repeated term _ => term.captureNames

def captureNamesOf : List Term → List String
  | [] => []
  | term :: terms => term.captureNames ++ captureNamesOf terms

end

-- The tests by which the contents of brackets are found among some nodes: each term of a set is
-- tested with the first node that it matches, each term of a sequence with the nodes that the
-- greatest assignment gives it.
def IsFoundBy (context : Context) (contents : List Term) (nodes : List Node)
    (visits : List (Term × Node)) : Shape → Prop
  | .set => visits.map (·.1) = contents ∧
      ∀ visit ∈ visits, ∃ front back, nodes = front ++ visit.2 :: back ∧
        ∀ other ∈ front, visit.1.run context other [] = .ok none
  | .sequence anchored => ∃ counts, IsLexGreatest (Assigns context anchored contents nodes) counts ∧
      visits = assigned contents counts nodes

mutual

-- What a match of a term at a node captures, put together from what its parts capture. Alternatives
-- and lists of nodes that were tried before those that match add nothing, nor does a negation.
inductive Collects (context : Context) : Term → Node → Captures → Prop
  | item {i : Item} {n : Node} (hholds : i.holds context n.tree = .ok true) :
      Collects context (.item i) n []
  | anyOf {front back : List Term} {term : Term} {n : Node} {taken : Captures}
      (hfront : ∀ other ∈ front, other.run context n [] = .ok none)
      (hterm : Collects context term n taken) :
      Collects context (.anyOf (front ++ term :: back)) n taken
  | containing {term : Term} {reach : Reach} {shape : Shape} {contents : List Term} {n : Node}
      {front back : List (List Node)} {nodes : List Node} {visits : List (Term × Node)}
      {outer inner : Captures} (hterm : Collects context term n outer)
      (hlists : reach.lists n = front ++ nodes :: back)
      (hfront : ∀ others ∈ front, runContents context contents shape others [] = .ok none)
      (hfound : IsFoundBy context contents nodes visits shape)
      (hvisits : CollectsAll context visits inner) :
      Collects context (.containing term reach shape contents) n (inner ++ outer)
  | capture {term : Term} {name : String} {n : Node} {taken : Captures}
      (hterm : Collects context term n taken) :
      Collects context (.capture term name) n ((name, n) :: taken)
  | negated {term : Term} {n : Node} (hnone : term.run context n [] = .ok none) :
      Collects context (.negated term) n []
  | repeated {term : Term} {times : Repetition} {n : Node} {taken : Captures}
      (hterm : Collects context term n taken) : Collects context (.repeated term times) n taken

inductive CollectsAll (context : Context) : List (Term × Node) → Captures → Prop
  | nil : CollectsAll context [] []
  | cons {term : Term} {n : Node} {visits : List (Term × Node)} {taken later : Captures}
      (hterm : Collects context term n taken) (hvisits : CollectsAll context visits later) :
      CollectsAll context ((term, n) :: visits) (later ++ taken)

end

theorem mem_captureNamesOf {name : String} {terms : List Term} :
    name ∈ captureNamesOf terms ↔ ∃ term ∈ terms, name ∈ term.captureNames := by
  induction terms with
  | nil => simp [captureNamesOf]
  | cons term terms ih => simp [captureNamesOf, ih]

theorem mem_below_of_mem_lists {n m : Node} {reach : Reach} {nodes : List Node}
    (hnodes : nodes ∈ reach.lists n) (hm : m ∈ nodes) : m ∈ n.below := by
  cases reach with
  | children =>
      rw [List.mem_singleton.mp hnodes] at hm
      exact Node.mem_below_of_mem_children hm
  | anywhere =>
      obtain ⟨k, hk, rfl⟩ := List.mem_map.mp hnodes
      exact Node.below_subset_of_mem_below hk (Node.mem_below_of_mem_children hm)

-- What a term can capture at a node is the node or one below it, by a name of the term.
theorem Term.MayCapture.mem {term : Term} {n m : Node} {name : String}
    (h : term.MayCapture n (name, m)) : m ∈ n.below ∧ name ∈ term.captureNames := by
  induction term generalizing n with
  | item i =>
      rw [Term.MayCapture] at h
      exact False.elim h
  | anyOf alternatives ih =>
      rw [Term.MayCapture] at h
      obtain ⟨term, hterm, h⟩ := h
      obtain ⟨hm, hname⟩ := ih term hterm h
      exact ⟨hm, mem_captureNamesOf.mpr ⟨term, hterm, hname⟩⟩
  | containing term reach shape contents ih ihc =>
      rw [Term.MayCapture] at h
      rcases h with h | ⟨nodes, hnodes, k, hk, c, hc, h⟩
      · obtain ⟨hm, hname⟩ := ih h
        exact ⟨hm, List.mem_append_left _ hname⟩
      · obtain ⟨hm, hname⟩ := ihc c hc h
        have hbelow := Node.below_subset_of_mem_below (mem_below_of_mem_lists hnodes hk)
        exact ⟨hbelow hm, List.mem_append_right _ (mem_captureNamesOf.mpr ⟨c, hc, hname⟩)⟩
  | capture term name' ih =>
      rw [Term.MayCapture] at h
      rcases h with h | h
      · cases h
        exact ⟨m.mem_below_self, List.mem_cons_self⟩
      · obtain ⟨hm, hname⟩ := ih h
        exact ⟨hm, List.mem_cons_of_mem name' hname⟩
  | negated term ih =>
      rw [Term.MayCapture] at h
      exact False.elim h
  | repeated term times ih =>
      rw [Term.MayCapture] at h
      exact ih h

section Collects

variable {context : Context} {terms : List Term} {nodes : List Node} {before after : Captures}

theorem exists_isFoundBy {shape : Shape}
    (h : runContents context terms shape nodes before = .ok (some after)) :
    ∃ visits, IsFoundBy context terms nodes visits shape ∧
      thread (runVisit context) visits before = .ok (some after) := by
  cases shape with
  | set =>
      rw [runContents] at h
      induction terms generalizing before with
      | nil => exact ⟨[], ⟨rfl, by simp⟩, h⟩
      | cons term terms ih =>
          rw [runSet] at h
          obtain ⟨outcome, hfind, h⟩ := bind_eq_ok.mp h
          cases outcome with
          | none => cases h
          | some taken =>
              obtain ⟨front, n, back, hnodes, hfront, hrun⟩ := findSomeM?_eq_ok_some.mp hfind
              obtain ⟨visits, ⟨hterms, hvisits⟩, hthread⟩ := ih h
              refine ⟨(term, n) :: visits, ⟨by simp [hterms], ?_⟩,
                thread_cons_eq_ok_some.mpr ⟨taken, hrun, hthread⟩⟩
              refine List.forall_mem_cons.mpr ⟨⟨front, back, hnodes, fun other ho => ?_⟩, hvisits⟩
              exact (term.run_frames context other).eq_ok_none_iff.mp (hfront other ho)
  | sequence anchored =>
      obtain ⟨counts, hcounts, hthread⟩ := exists_assigns_of_runSequence h
      exact ⟨assigned terms counts nodes, ⟨counts, hcounts, rfl⟩, hthread⟩

theorem IsFoundBy.term_mem {shape : Shape} {visits : List (Term × Node)}
    (h : IsFoundBy context terms nodes visits shape) : ∀ visit ∈ visits, visit.1 ∈ terms := by
  cases shape with
  | set =>
      intro visit hvisit
      rw [← h.1]
      exact List.mem_map_of_mem hvisit
  | sequence anchored =>
      obtain ⟨counts, -, rfl⟩ := h
      exact fun visit => term_mem_of_mem_assigned

-- If each test of a list collects what it captures, then so do they together.
theorem exists_collectsAll {visits : List (Term × Node)}
    (hterms : ∀ visit ∈ visits, ∀ taken, visit.1.run context visit.2 [] = .ok (some taken) →
      Collects context visit.1 visit.2 taken)
    (h : thread (runVisit context) visits before = .ok (some after)) :
    ∃ inner, CollectsAll context visits inner ∧ after = inner ++ before := by
  induction visits generalizing before with
  | nil =>
      cases h
      exact ⟨[], .nil, rfl⟩
  | cons visit visits ih =>
      obtain ⟨hvisit, hvisits⟩ := List.forall_mem_cons.mp hterms
      obtain ⟨next, hrun, h⟩ := thread_cons_eq_ok_some.mp h
      obtain ⟨taken, htaken, rfl⟩ := (visit.1.run_frames context visit.2).eq_ok_some_iff.mp hrun
      obtain ⟨later, hlater, rfl⟩ := ih hvisits h
      exact ⟨later ++ taken, .cons (hvisit taken htaken) hlater, (List.append_assoc ..).symm⟩

theorem Term.run_collects {term : Term} {n : Node} {taken : Captures}
    (h : term.run context n [] = .ok (some taken)) : Collects context term n taken := by
  induction term generalizing n taken with
  | item i =>
      rw [Term.run] at h
      obtain ⟨value, hvalue, h⟩ := bind_eq_ok.mp h
      cases value with
      | false => cases h
      | true =>
          cases h
          exact .item hvalue
  | anyOf alternatives ih =>
      rw [Term.run, runAnyOf_eq] at h
      obtain ⟨front, term, back, rfl, hfront, hrun⟩ := findSomeM?_eq_ok_some.mp h
      exact .anyOf hfront (ih term (by simp) hrun)
  | containing term reach shape contents ih ihc =>
      obtain ⟨outer, hrun, front, nodes, back, hlists, hfront, hcontents⟩ :=
        run_containing_eq_ok_some h
      obtain ⟨visits, hfound, hthread⟩ := exists_isFoundBy hcontents
      obtain ⟨inner, hvisits, rfl⟩ := exists_collectsAll
        (fun visit hvisit taken => ihc visit.1 (hfound.term_mem visit hvisit)) hthread
      refine .containing (ih hrun) hlists (fun others ho => ?_) hfound hvisits
      have hframes : Frames (runContents context contents shape others) :=
        runContents_frames shape fun c _ => c.run_frames context
      exact hframes.eq_ok_none_iff.mp (hfront others ho)
  | capture term name ih =>
      rw [Term.run] at h
      obtain ⟨outcome, hrun, h⟩ := bind_eq_ok.mp h
      cases outcome with
      | none => cases h
      | some taken =>
          cases h
          exact .capture (ih hrun)
  | negated term ih =>
      rw [Term.run] at h
      obtain ⟨outcome, hrun, h⟩ := bind_eq_ok.mp h
      cases outcome with
      | some taken => cases h
      | none =>
          cases h
          exact .negated hrun
  | repeated term times ih =>
      rw [Term.run] at h
      exact .repeated (ih h)

end Collects

-- A term matches a node whatever was captured before, and then puts in front of it what it captures
-- on its own, which wins by name: nodes at or below the node, by names that stand under no
-- negation, from the parts that make up the match and no others. There is no error if the names of
-- the term have meanings.
theorem Term.run_captures (context : Context) (term : Term) (n : Node) (before : Captures) :
    (context.Supports term.macros → ∃ captured, term.run context n before = .ok captured) ∧
      (term.run context n before = .ok none ↔ term.run context n [] = .ok none) ∧
      (∀ after, term.run context n before = .ok (some after) ↔
        ∃ taken, term.run context n [] = .ok (some taken) ∧ after = taken ++ before) ∧
      ∀ taken, term.run context n [] = .ok (some taken) →
        (∀ name, (taken ++ before).lookup name = (taken.lookup name).or (before.lookup name)) ∧
        (∀ name m, (name, m) ∈ taken → m ∈ n.below ∧ name ∈ term.captureNames) ∧
        Collects context term n taken := by
  have hframes := term.run_frames context n
  refine ⟨fun hnames => ?_, hframes.eq_ok_none_iff, fun after => hframes.eq_ok_some_iff,
    fun taken hrun => ⟨fun name => List.lookup_append, fun name m hmem => ?_, run_collects hrun⟩⟩
  · obtain ⟨captured, hok, -⟩ := Term.run_decides hnames n before
    exact ⟨captured, hok⟩
  · obtain ⟨added, hadded, hmay⟩ := Term.run_extends hrun
    rw [List.append_nil] at hadded
    exact (hmay (name, m) (hadded ▸ hmem)).mem

-- The alternative that fails behind its noun leaves no capture, and the phrase that was captured
-- before is overridden.
theorem Term.run_captures_compound :
    let inner : Node := ⟨[1], .node "NX" [.node "NN" [.leaf "head"]]⟩
    let np : Node := ⟨[], .node "NP" [.node "DT" [.leaf "the"], inner.tree]⟩
    let noun : Term := .capture (.item (.atom (.tag "NN"))) "noun"
    let owner : Term := .containing (.item (.atom (.tag "NX"))) .children (.sequence false)
      [noun, .item (.atom (.tag "POS"))]
    let term : Term := .capture (.containing (.item (.atom (.tag "NP"))) .children .set
      [.anyOf [owner, .capture (.item (.atom (.tag "NX"))) "inner"]]) "phrase"
    compile "NP=phrase > ( NX > [ NN=noun POS ] | NX=inner )" = .ok [term] ∧
      term.run (fun _ => none) np [("phrase", inner)] =
        .ok (some ([("phrase", np), ("inner", inner)] ++ [("phrase", inner)])) ∧
      Collects (fun _ => none) term np [("phrase", np), ("inner", inner)] := by
  intro inner np noun owner term
  have hcompile : compile "NP=phrase > ( NX > [ NN=noun POS ] | NX=inner )" = .ok [term] := by
    decide +kernel
  obtain ⟨hok, -, hafter, hcollects⟩ :=
    Term.run_captures (fun _ => none) term np [("phrase", inner)]
  obtain ⟨captured, hrun⟩ :=
    hok (by simp [term, owner, noun, Term.macros, macrosOf, Context.Supports])
  have hvalue : term.run (fun _ => none) np [("phrase", inner)] =
      .ok (some ([("phrase", np), ("inner", inner)] ++ [("phrase", inner)])) := by
    simp only [term, owner, noun, np, inner]
    rfl
  have hcaptured := Except.ok.inj (hrun.symm.trans hvalue)
  rw [hcaptured] at hrun
  obtain ⟨taken, halone, heq⟩ := (hafter _).mp hrun
  rw [← List.append_cancel_right heq] at halone
  exact ⟨hcompile, hrun, (hcollects _ halone).2.2⟩

end HeadPercolation.Pattern
