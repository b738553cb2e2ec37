import HeadPercolation.Pattern.Match
import HeadPercolation.Proofs.Results

namespace HeadPercolation.Pattern

-- Tests one element after the other, each with the captures of those before it.
def thread {α : Type} (test : α → Captures → Outcome) : List α → Captures → Outcome
  | [], captures => return some captures
  | x :: xs, captures => do
    match ← test x captures with
    | none => return none
    | some taken => thread test xs taken

-- May a term stand for so many nodes of a sequence?
def StandsFor (times : Option Repetition) (count : Nat) : Prop :=
  match times with
  | none => count = 1
  | some .optional => count ≤ 1
  | some .zeroOrMore => True
  | some .oneOrMore => 1 ≤ count

-- What remains after a test of the first `count` nodes.
structure IsShare (test : Node → Captures → Outcome) (nodes : List Node) (captures : Captures)
    (count : Nat) (r : Remainder) : Prop where
  le : count ≤ nodes.length
  nodes_eq : r.nodes = nodes.drop count
  run : thread test (nodes.take count) captures = .ok (some r.captures)

-- What remains after the numbers of nodes that satisfy `p`, the largest number first.
structure AreShares (test : Node → Captures → Outcome) (nodes : List Node) (captures : Captures)
    (p : Nat → Prop) (rs : List Remainder) : Prop where
  mem : ∀ r, r ∈ rs ↔ ∃ count, p count ∧ IsShare test nodes captures count r
  sorted : rs.Pairwise fun r r' => r.nodes.length < r'.nodes.length

section Thread

variable {α : Type} {test : α → Captures → Outcome} {captures after : Captures}

theorem thread_cons_eq_ok_some {x : α} {xs : List α} :
    thread test (x :: xs) captures = .ok (some after) ↔
      ∃ taken, test x captures = .ok (some taken) ∧ thread test xs taken = .ok (some after) := by
  rw [thread, bind_eq_ok]
  constructor
  · rintro ⟨outcome, hx, h⟩
    cases outcome with
    | none => cases h
    | some taken => exact ⟨taken, hx, h⟩
  · rintro ⟨taken, hx, h⟩
    exact ⟨some taken, hx, h⟩

theorem thread_append_eq_ok_some {xs ys : List α} :
    thread test (xs ++ ys) captures = .ok (some after) ↔
      ∃ taken, thread test xs captures = .ok (some taken) ∧
        thread test ys taken = .ok (some after) := by
  induction xs generalizing captures with
  | nil => simp [thread, pure, Except.pure]
  | cons x xs ih =>
      simp only [List.cons_append, thread_cons_eq_ok_some, ih]
      grind

theorem thread_map {β : Type} (f : β → α) (xs : List β) :
    thread test (xs.map f) captures = thread (test <| f ·) xs captures := by
  induction xs generalizing captures with
  | nil => rfl
  | cons x xs ih => simp only [List.map_cons, thread, ih]

-- If a test of each element comes to `q`, then elements can be tested one after the other exactly
-- if all of them satisfy `q`.
theorem exists_thread_iff {q : α → Prop}
    (hq : ∀ x captures, (∃ after, test x captures = .ok (some after)) ↔ q x) {xs : List α} :
    (∃ after, thread test xs captures = .ok (some after)) ↔ ∀ x ∈ xs, q x := by
  induction xs generalizing captures with
  | nil => exact ⟨fun _ => nofun, fun _ => ⟨captures, rfl⟩⟩
  | cons x xs ih =>
      simp only [List.forall_mem_cons, ← hq x captures, thread_cons_eq_ok_some]
      constructor
      · rintro ⟨after, taken, hx, hafter⟩
        exact ⟨⟨taken, hx⟩, ih.mp ⟨after, hafter⟩⟩
      · rintro ⟨⟨taken, hx⟩, hxs⟩
        obtain ⟨after, hafter⟩ := ih.mpr hxs
        exact ⟨after, taken, hx, hafter⟩

end Thread

section Shares

variable {test : Node → Captures → Outcome} {nodes ns : List Node} {n : Node}
  {captures taken : Captures} {p q : Nat → Prop} {count : Nat} {r : Remainder}
  {rs : List Remainder}

theorem IsShare.length_nodes (h : IsShare test nodes captures count r) :
    r.nodes.length = nodes.length - count := by
  rw [h.nodes_eq, List.length_drop]

theorem isShare_zero : IsShare test nodes captures 0 r ↔ r = ⟨nodes, captures⟩ := by
  constructor
  · rintro ⟨-, hnodes, hrun⟩
    cases r
    cases hnodes
    cases hrun
    rfl
  · rintro rfl
    exact ⟨Nat.zero_le _, rfl, rfl⟩

theorem exists_isShare_iff {q : Node → Prop}
    (hq : ∀ n captures, (∃ after, test n captures = .ok (some after)) ↔ q n) :
    (∃ r, IsShare test nodes captures count r) ↔
      count ≤ nodes.length ∧ ∀ n ∈ nodes.take count, q n := by
  rw [← exists_thread_iff hq]
  constructor
  · rintro ⟨r, hle, -, hrun⟩
    exact ⟨hle, r.captures, hrun⟩
  · rintro ⟨hle, after, hrun⟩
    exact ⟨⟨nodes.drop count, after⟩, hle, rfl, hrun⟩

theorem isShare_succ :
    IsShare test (n :: ns) captures (count + 1) r ↔
      ∃ taken, test n captures = .ok (some taken) ∧ IsShare test ns taken count r := by
  constructor
  · rintro ⟨hle, hnodes, hrun⟩
    obtain ⟨taken, hn, hrun⟩ := thread_cons_eq_ok_some.mp hrun
    exact ⟨taken, hn, Nat.le_of_succ_le_succ hle, hnodes, hrun⟩
  · rintro ⟨taken, hn, hle, hnodes, hrun⟩
    exact ⟨Nat.succ_le_succ hle, hnodes, thread_cons_eq_ok_some.mpr ⟨taken, hn, hrun⟩⟩

theorem AreShares.congr (h : AreShares test nodes captures p rs)
    (hpq : ∀ count, p count ↔ q count) : AreShares test nodes captures q rs :=
  ⟨fun r => by simp only [h.mem r, hpq], h.sorted⟩

theorem areShares_nil (h : ∀ count r, p count → ¬IsShare test nodes captures count r) :
    AreShares test nodes captures p [] := by
  refine ⟨fun r => ⟨nofun, ?_⟩, List.Pairwise.nil⟩
  rintro ⟨count, hp, hshare⟩
  exact absurd hshare (h count r hp)

-- The share of no node comes last.
theorem AreShares.concat (h : AreShares test nodes captures p rs)
    (hp : ∀ count, p count → 1 ≤ count) :
    AreShares test nodes captures (fun count => count = 0 ∨ p count)
      (rs ++ [⟨nodes, captures⟩]) where
  mem r := by
    rw [List.mem_append, h.mem, List.mem_singleton, ← isShare_zero]
    simp only [or_and_right, exists_or, exists_eq_left]
    exact Or.comm
  sorted := by
    refine List.pairwise_append.mpr ⟨h.sorted, List.pairwise_singleton _ _, fun r hr r' hr' => ?_⟩
    obtain ⟨count, hcount, hshare⟩ := (h.mem r).mp hr
    have hpos := hp count hcount
    have hle := hshare.le
    rw [List.mem_singleton.mp hr', hshare.length_nodes]
    exact Nat.sub_lt (Nat.le_trans hpos hle) hpos

-- A share of more nodes is tried earlier.
theorem AreShares.mem_front {front back : List Remainder} {r' : Remainder}
    (h : AreShares test nodes captures p (front ++ r :: back)) (hr' : r' ∈ front ++ r :: back)
    (hlength : r'.nodes.length < r.nodes.length) : r' ∈ front := by
  rcases List.mem_append.mp hr' with hin | hin
  · exact hin
  · have hafter := (List.pairwise_append.mp h.sorted).2.1
    rcases List.mem_cons.mp hin with rfl | hin
    · exact absurd hlength (Nat.lt_irrefl _)
    · exact absurd hlength (Nat.lt_asymm (List.rel_of_pairwise_cons hafter hin))

-- The first node is tested before the others.
theorem AreShares.cons (hn : test n captures = .ok (some taken))
    (h : AreShares test ns taken p rs) :
    AreShares test (n :: ns) captures (fun count => ∃ k, p k ∧ count = k + 1) rs where
  mem r := by
    rw [h.mem]
    constructor
    · rintro ⟨k, hk, hshare⟩
      exact ⟨k + 1, ⟨k, hk, rfl⟩, isShare_succ.mpr ⟨taken, hn, hshare⟩⟩
    · rintro ⟨-, ⟨k, hk, rfl⟩, hshare⟩
      obtain ⟨taken', hn', hshare⟩ := isShare_succ.mp hshare
      obtain rfl : taken' = taken := Option.some.inj (Except.ok.inj (hn'.symm.trans hn))
      exact ⟨k, hk, hshare⟩
  sorted := h.sorted

-- The share of one node is the first of them.
theorem isShare_one :
    IsShare test nodes captures 1 r ↔
      ∃ n, nodes = n :: r.nodes ∧ test n captures = .ok (some r.captures) := by
  constructor
  · intro hshare
    obtain ⟨n, ns, rfl⟩ := List.exists_cons_of_ne_nil (List.ne_nil_of_length_pos hshare.le)
    obtain ⟨taken, hn, hrest⟩ := isShare_succ.mp hshare
    rw [isShare_zero.mp hrest]
    exact ⟨n, rfl, hn⟩
  · rintro ⟨n, rfl, hn⟩
    exact isShare_succ.mpr ⟨r.captures, hn, isShare_zero.mpr rfl⟩

-- A first node that does not match is taken by no share but the empty one.
theorem not_isShare_of_none (hn : test n captures = .ok none) (hcount : 1 ≤ count) :
    ¬IsShare test (n :: ns) captures count r := by
  obtain ⟨count, rfl⟩ := Nat.exists_eq_add_of_le' hcount
  intro hshare
  obtain ⟨taken, hn', -⟩ := isShare_succ.mp hshare
  rw [hn] at hn'
  cases hn'

theorem not_isShare_nil (hcount : 1 ≤ count) : ¬IsShare test [] captures count r :=
  fun hshare => absurd (Nat.le_trans hcount hshare.le) (Nat.not_succ_le_zero 0)

theorem shares_areShares (h : shares test nodes captures = .ok rs) :
    ∃ taken, rs = taken ++ [⟨nodes, captures⟩] ∧ AreShares test nodes captures (1 ≤ ·) taken := by
  induction nodes generalizing captures rs with
  | nil =>
      cases h
      exact ⟨[], rfl, areShares_nil fun count r => not_isShare_nil⟩
  | cons n ns ih =>
      rw [shares] at h
      obtain ⟨outcome, hn, h⟩ := bind_eq_ok.mp h
      cases outcome with
      | none =>
          cases h
          exact ⟨[], rfl, areShares_nil fun count r => not_isShare_of_none hn⟩
      | some after =>
          obtain ⟨rest, hrest, h⟩ := bind_eq_ok.mp h
          cases h
          obtain ⟨taken, rfl, htaken⟩ := ih hrest
          refine ⟨_, rfl, ((htaken.concat fun _ => id).cons hn).congr fun count => ?_⟩
          constructor
          · rintro ⟨k, -, rfl⟩
            exact Nat.le_add_left 1 k
          · intro hcount
            exact ⟨count - 1, by omega, by omega⟩

theorem oneShare_areShares (h : oneShare test nodes captures = .ok rs) :
    AreShares test nodes captures (· = 1) rs := by
  cases nodes with
  | nil =>
      cases h
      exact areShares_nil fun count r hcount => not_isShare_nil (Nat.le_of_eq hcount.symm)
  | cons n ns =>
      rw [oneShare] at h
      obtain ⟨outcome, hn, h⟩ := bind_eq_ok.mp h
      cases outcome with
      | none =>
          cases h
          exact areShares_nil fun count r hcount =>
            not_isShare_of_none hn (Nat.le_of_eq hcount.symm)
      | some taken =>
          cases h
          have hnone : AreShares test ns taken (fun _ => False) [] := areShares_nil nofun
          exact ((hnone.concat nofun).cons hn).congr fun count => by simp

-- A term leaves what remains after each number of nodes that it may stand for.
theorem sharesOf_areShares {times : Option Repetition}
    (h : sharesOf times test nodes captures = .ok rs) :
    AreShares test nodes captures (StandsFor times) rs := by
  cases times with
  | none => exact oneShare_areShares h
  | some times =>
      cases times with
      | optional =>
          obtain ⟨taken, htaken, rfl⟩ := map_eq_ok.mp h
          have hone := oneShare_areShares htaken
          refine (hone.concat fun count hcount => Nat.le_of_eq hcount.symm).congr fun count => ?_
          exact Nat.le_one_iff_eq_zero_or_eq_one.symm
      | zeroOrMore =>
          obtain ⟨taken, rfl, htaken⟩ := shares_areShares h
          refine (htaken.concat fun _ => id).congr fun count => ?_
          simp only [StandsFor, iff_true]
          omega
      | oneOrMore =>
          obtain ⟨all, hall, rfl⟩ := map_eq_ok.mp h
          obtain ⟨taken, rfl, htaken⟩ := shares_areShares hall
          rw [List.dropLast_concat]
          exact htaken

section Results

variable (htest : ∀ n captures, ∃ captured, test n captures = .ok captured)
include htest

theorem exists_shares_eq_ok (nodes : List Node) (captures : Captures) :
    ∃ rs, shares test nodes captures = .ok rs := by
  induction nodes generalizing captures with
  | nil => exact ⟨_, rfl⟩
  | cons n ns ih =>
      obtain ⟨captured, hn⟩ := htest n captures
      rw [shares, bind_of_eq_ok hn]
      cases captured with
      | none => exact ⟨_, rfl⟩
      | some taken =>
          obtain ⟨rs, hrs⟩ := ih taken
          exact ⟨_, bind_of_eq_ok hrs⟩

theorem exists_oneShare_eq_ok (nodes : List Node) (captures : Captures) :
    ∃ rs, oneShare test nodes captures = .ok rs := by
  cases nodes with
  | nil => exact ⟨_, rfl⟩
  | cons n ns =>
      obtain ⟨captured, hn⟩ := htest n captures
      rw [oneShare, bind_of_eq_ok hn]
      cases captured <;> exact ⟨_, rfl⟩

-- Tests without an error leave shares without an error.
theorem exists_sharesOf_eq_ok (times : Option Repetition) (nodes : List Node)
    (captures : Captures) : ∃ rs, sharesOf times test nodes captures = .ok rs := by
  obtain ⟨one, hone⟩ := exists_oneShare_eq_ok htest nodes captures
  obtain ⟨all, hall⟩ := exists_shares_eq_ok htest nodes captures
  cases times with
  | none => exact ⟨one, hone⟩
  | some times =>
      cases times with
      | optional => exact ⟨_, map_eq_ok.mpr ⟨one, hone, rfl⟩⟩
      | zeroOrMore => exact ⟨all, hall⟩
      | oneOrMore => exact ⟨_, map_eq_ok.mpr ⟨all, hall, rfl⟩⟩

end Results

end Shares

end HeadPercolation.Pattern
