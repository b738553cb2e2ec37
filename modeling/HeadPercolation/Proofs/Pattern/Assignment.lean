import HeadPercolation.Proofs.Pattern.Framing
import HeadPercolation.Proofs.Pattern.Shares
import Mathlib.Data.List.Lex

namespace HeadPercolation.Pattern

-- Gives each term of a sequence a number of nodes, one after the other from the first node on. The
-- term must match each of its nodes, and an anchored sequence must leave no node.
inductive Assigns (context : Context) (anchored : Bool) : List Term → List Node → List Nat → Prop
  | nil {nodes : List Node} (hend : anchored = true → nodes = []) :
      Assigns context anchored [] nodes []
  | cons {term : Term} {terms : List Term} {nodes : List Node} {count : Nat} {counts : List Nat}
      (hstands : StandsFor term.repetition? count) (hcount : count ≤ nodes.length)
      (hmatch : ∀ n ∈ nodes.take count, term.Matches context n)
      (hrest : Assigns context anchored terms (nodes.drop count) counts) :
      Assigns context anchored (term :: terms) nodes (count :: counts)

-- The lexicographically greatest of some lists of numbers.
structure IsLexGreatest (p : List Nat → Prop) (counts : List Nat) : Prop where
  mem : p counts
  lt : ∀ others, p others → others ≠ counts → List.Lex (· < ·) others counts

-- The nodes of an assignment, each with the term that it is given to.
def assigned : List Term → List Nat → List Node → List (Term × Node)
  | term :: terms, count :: counts, nodes =>
    (nodes.take count).map (term, ·) ++ assigned terms counts (nodes.drop count)
  | _, _, _ => []

def runVisit (context : Context) (visit : Term × Node) : Captures → Outcome :=
  visit.1.run context visit.2

theorem IsLexGreatest.unique {p : List Nat → Prop} {counts others : List Nat}
    (h : IsLexGreatest p counts) (h' : IsLexGreatest p others) : others = counts := by
  by_contra hne
  have hlt := h.lt others h'.mem hne
  have hgt := h'.lt counts h.mem (Ne.symm hne)
  exact List.lex_asymm (fun hlt => Nat.lt_asymm hlt) hlt hgt

theorem term_mem_of_mem_assigned {terms : List Term} {counts : List Nat} {nodes : List Node}
    {visit : Term × Node} (h : visit ∈ assigned terms counts nodes) : visit.1 ∈ terms := by
  induction terms generalizing counts nodes with
  | nil => cases counts <;> cases h
  | cons term terms ih =>
      cases counts with
      | nil => cases h
      | cons count counts =>
          rw [assigned] at h
          rcases List.mem_append.mp h with hmem | hmem
          · obtain ⟨n, -, rfl⟩ := List.mem_map.mp hmem
            exact List.mem_cons_self
          · exact List.mem_cons_of_mem term (ih hmem)

section Assigns

variable {context : Context} {anchored : Bool} {term : Term} {terms : List Term}
  {nodes : List Node} {count : Nat} {captures after : Captures}

theorem Term.exists_isShare_iff (captures : Captures) :
    (∃ r, IsShare (term.run context) nodes captures count r) ↔
      count ≤ nodes.length ∧ ∀ n ∈ nodes.take count, term.Matches context n :=
  Pattern.exists_isShare_iff fun _ captures => (Term.matches_iff captures).symm

theorem not_assigns_of_runSequence
    (h : runSequence context anchored terms nodes captures = .ok none) (counts : List Nat) :
    ¬Assigns context anchored terms nodes counts := by
  induction terms generalizing nodes captures counts with
  | nil =>
      rintro ⟨hend⟩
      cases anchored with
      | false => cases h
      | true =>
          rw [hend rfl] at h
          cases h
  | cons term terms ih =>
      intro hassigns
      cases hassigns with
      | @cons _ _ _ count counts hstands hcount hmatch hrest =>
          rw [runSequence] at h
          obtain ⟨rs, hrs, h⟩ := bind_eq_ok.mp h
          obtain ⟨r, hshare⟩ := (Term.exists_isShare_iff captures).mpr ⟨hcount, hmatch⟩
          have hr := ((sharesOf_areShares hrs).mem r).mpr ⟨count, hstands, hshare⟩
          rw [← hshare.nodes_eq] at hrest
          exact ih (findSomeM?_eq_ok_none.mp h r hr) counts hrest

-- A sequence that matches has the captures of its greatest assignment. The shares of the first term
-- that were tried before the one that counts are larger, and leave no assignment to the other
-- terms.
theorem exists_assigns_of_runSequence
    (h : runSequence context anchored terms nodes captures = .ok (some after)) :
    ∃ counts, IsLexGreatest (Assigns context anchored terms nodes) counts ∧
      thread (runVisit context) (assigned terms counts nodes) captures = .ok (some after) := by
  induction terms generalizing nodes captures with
  | nil =>
      simp only [runSequence] at h
      split at h
      · cases h
      · rename_i hleft
        cases h
        refine ⟨[], ⟨.nil fun hanchored => ?_, ?_⟩, rfl⟩
        · simpa [hanchored] using hleft
        · rintro others ⟨⟩ hne
          exact absurd rfl hne
  | cons term terms ih =>
      rw [runSequence] at h
      obtain ⟨rs, hrs, h⟩ := bind_eq_ok.mp h
      have hshares := sharesOf_areShares hrs
      obtain ⟨front, r, back, rfl, hfront, hrun⟩ := findSomeM?_eq_ok_some.mp h
      obtain ⟨count, hstands, hshare⟩ := (hshares.mem r).mp (by simp)
      obtain ⟨counts, hcounts, hthread⟩ := ih hrun
      rw [hshare.nodes_eq] at hcounts hthread
      obtain ⟨hcount, hmatch⟩ := (Term.exists_isShare_iff captures).mp ⟨r, hshare⟩
      refine ⟨count :: counts, ⟨.cons hstands hcount hmatch hcounts.mem, ?_⟩, ?_⟩
      · intro others hothers hne
        cases hothers with
        | @cons _ _ _ count' counts' hstands' hcount' hmatch' hrest' =>
            obtain ⟨r', hshare'⟩ := (Term.exists_isShare_iff captures).mpr ⟨hcount', hmatch'⟩
            rcases Nat.lt_trichotomy count' count with hless | rfl | hmore
            · exact .rel hless
            · exact .cons (hcounts.lt counts' hrest' fun heq => hne (by rw [heq]))
            · have hr' := (hshares.mem r').mpr ⟨count', hstands', hshare'⟩
              have hlength : r'.nodes.length < r.nodes.length := by
                rw [hshare.length_nodes, hshare'.length_nodes]
                omega
              have htried : r' ∈ front := hshares.mem_front hr' hlength
              rw [← hshare'.nodes_eq] at hrest'
              exact absurd hrest' (not_assigns_of_runSequence (hfront r' htried) counts')
      · rw [assigned, thread_append_eq_ok_some, thread_map]
        exact ⟨r.captures, hshare.run, hthread⟩

end Assigns

-- A sequence matches exactly if nodes can be assigned to its terms, and its captures are those of
-- the terms on the nodes of the greatest assignment, taken from the first node to the last. There
-- is no error if the names of the terms have meanings.
theorem runSequence_greatest (context : Context) (anchored : Bool) (terms : List Term)
    (nodes : List Node) (captures : Captures) :
    (context.Supports (macrosOf terms) →
      ∃ captured, runSequence context anchored terms nodes captures = .ok captured) ∧
    ∀ captured, runSequence context anchored terms nodes captures = .ok captured →
      (captured.isSome ↔ ∃ counts, Assigns context anchored terms nodes counts) ∧
        ∀ after, captured = some after ↔
          ∃ counts, IsLexGreatest (Assigns context anchored terms nodes) counts ∧
            thread (runVisit context) (assigned terms counts nodes) captures =
              .ok (some after) := by
  refine ⟨fun hnames => ?_, fun captured hrun => ?_⟩
  · obtain ⟨captured, hok, -⟩ := runSequence_decides anchored
      (fun term hm => Term.run_decides (hnames.of_mem hm)) nodes captures
    exact ⟨captured, hok⟩
  · cases captured with
    | none =>
        have hnone := not_assigns_of_runSequence hrun
        refine ⟨by simpa using hnone, fun after => ⟨nofun, ?_⟩⟩
        rintro ⟨counts, hcounts, -⟩
        exact absurd hcounts.mem (hnone counts)
    | some taken =>
        obtain ⟨counts, hcounts, hthread⟩ := exists_assigns_of_runSequence hrun
        refine ⟨by simpa using ⟨counts, hcounts.mem⟩, fun after => ?_⟩
        constructor
        · rintro ⟨⟩
          exact ⟨counts, hcounts, hthread⟩
        · rintro ⟨counts', hcounts', hthread'⟩
          rw [hcounts.unique hcounts', hthread] at hthread'
          cases hthread'
          rfl

-- The star takes the determiner and gives back the two nouns that it took first: the second term
-- captures the first of them, and the third takes the other.
theorem runSequence_greatest_compound :
    let np : Node := ⟨[], .node "NP" [.node "DT" [.leaf "the"], .node "NN" [.leaf "head"],
      .node "NN" [.leaf "word"]]⟩
    let terms : List Term := [.repeated (.item (.atom .any)) .zeroOrMore,
      .capture (.item (.atom (.tag "NN"))) "noun", .repeated (.item (.atom .any)) .optional]
    ∃ counts, IsLexGreatest (Assigns (fun _ => none) true terms np.children) counts ∧
      thread (runVisit fun _ => none) (assigned terms counts np.children) [] =
        .ok (some [("noun", ⟨[2], .node "NN" [.leaf "word"]⟩)]) := by
  intro np terms
  obtain ⟨hok, hgreatest⟩ := runSequence_greatest (fun _ => none) true terms np.children []
  obtain ⟨captured, hrun⟩ := hok (by simp [terms, macrosOf, Term.macros, Context.Supports])
  have hcaptured : captured = some [("noun", ⟨[2], .node "NN" [.leaf "word"]⟩)] :=
    Except.ok.inj (hrun.symm.trans rfl)
  exact ((hgreatest captured hrun).2 _).mp hcaptured

end HeadPercolation.Pattern
