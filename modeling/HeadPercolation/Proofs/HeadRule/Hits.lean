import HeadPercolation.HeadRule.Directive

namespace HeadPercolation

section Nearest

variable {α : Type}

-- Is `j` passed on the way from the edge to `i`?
def Edge.Passes (j i : Nat) : Edge → Prop
  | left => j < i
  | right => i < j

-- The place of the element nearest to the edge that satisfies `p`.
def Edge.Nearest (edge : Edge) (p : α → Prop) (xs : List α) (i : Nat) : Prop :=
  (∃ x, xs[i]? = some x ∧ p x) ∧ ∀ j x, edge.Passes j i → xs[j]? = some x → ¬p x

theorem Edge.Nearest.lt {edge : Edge} {p : α → Prop} {xs : List α} {i : Nat}
    (h : edge.Nearest p xs i) : i < xs.length := by
  obtain ⟨⟨x, hx, -⟩, -⟩ := h
  exact (List.getElem?_eq_some_iff.mp hx).1

theorem Edge.Nearest.of_getElem? {edge : Edge} {p : α → Prop} {xs : List α} {i : Nat} {x : α}
    (h : edge.Nearest p xs i) (hx : xs[i]? = some x) : p x := by
  obtain ⟨⟨y, hy, hp⟩, -⟩ := h
  rw [hx] at hy
  cases hy
  exact hp

theorem Edge.search_left_eq_some_iff {p : α → Bool} {xs : List α} {i : Nat} :
    Edge.left.search p xs = some i ↔ Edge.left.Nearest (fun x => p x) xs i := by
  simp only [search, List.findIdx?_eq_some_iff_getElem, Nearest, Passes]
  constructor
  · rintro ⟨hi, hp, hbefore⟩
    refine ⟨⟨xs[i], List.getElem?_eq_getElem hi, hp⟩, fun j x hj hx => ?_⟩
    obtain ⟨_, rfl⟩ := List.getElem?_eq_some_iff.mp hx
    exact hbefore j hj
  · rintro ⟨⟨x, hx, hp⟩, hbefore⟩
    obtain ⟨hi, rfl⟩ := List.getElem?_eq_some_iff.mp hx
    exact ⟨hi, hp, fun j hj => hbefore j _ hj (List.getElem?_eq_getElem (Nat.lt_trans hj hi))⟩

-- What is nearest to one edge is nearest to the other in the reversed list.
theorem Edge.Nearest.reverse {edge : Edge} {p : α → Prop} {xs : List α} {i : Nat}
    (h : edge.Nearest p xs i) : edge.opposite.Nearest p xs.reverse (xs.length - 1 - i) := by
  have hi := h.lt
  obtain ⟨⟨x, hx, hp⟩, hbefore⟩ := h
  refine ⟨⟨x, ?_, hp⟩, fun j y hj hy => ?_⟩
  · have hback : xs.length - 1 - (xs.length - 1 - i) = i := by omega
    rw [List.getElem?_reverse (by omega), hback]
    exact hx
  · have hlt : j < xs.length := by
      have := (List.getElem?_eq_some_iff.mp hy).1
      simpa using this
    rw [List.getElem?_reverse hlt] at hy
    apply hbefore (xs.length - 1 - j) y _ hy
    cases edge with
    | left =>
        simp only [opposite, Passes] at hj ⊢
        omega
    | right =>
        simp only [opposite, Passes] at hj ⊢
        omega

theorem Edge.search_right_eq_some_iff {p : α → Bool} {xs : List α} {i : Nat} :
    Edge.right.search p xs = some i ↔ Edge.right.Nearest (fun x => p x) xs i := by
  have hleft {k : Nat} : xs.reverse.findIdx? p = some k ↔
      Edge.left.Nearest (fun x => p x) xs.reverse k := search_left_eq_some_iff
  rw [search, Option.map_eq_some_iff]
  constructor
  · rintro ⟨k, hk, rfl⟩
    have hn := (hleft.mp hk).reverse
    rwa [List.reverse_reverse, List.length_reverse] at hn
  · intro h
    refine ⟨xs.length - 1 - i, hleft.mpr h.reverse, ?_⟩
    have hi := h.lt
    omega

theorem Edge.search_eq_some_iff {edge : Edge} {p : α → Bool} {xs : List α} {i : Nat} :
    edge.search p xs = some i ↔ edge.Nearest (fun x => p x) xs i := by
  cases edge with
  | left => exact search_left_eq_some_iff
  | right => exact search_right_eq_some_iff

theorem Edge.search_eq_none_iff {edge : Edge} {p : α → Bool} {xs : List α} :
    edge.search p xs = none ↔ ∀ x ∈ xs, p x = false := by
  cases edge with
  | left => exact List.findIdx?_eq_none_iff
  | right => simp [search]

-- A search does not see more of the elements than the answers of its test.
theorem Edge.search_congr {β : Type} {p : α → Bool} {q : β → Bool} {xs : List α} {ys : List β}
    (h : xs.map p = ys.map q) (edge : Edge) : edge.search p xs = edge.search q ys := by
  have hmap {γ : Type} (r : γ → Bool) (zs : List γ) :
      edge.search r zs = edge.search id (zs.map r) := by
    cases edge <;> simp [search, ← List.map_reverse, List.findIdx?_map]
  rw [hmap p, hmap q, h]

-- From the right, the search passes what stands behind the hit.
theorem Edge.search_right_append_cons {p : α → Bool} {before after : List α} {x : α}
    (hx : p x = true) (hafter : ∀ y ∈ after, p y = false) :
    Edge.right.search p (before ++ x :: after) = some before.length := by
  refine search_right_eq_some_iff.mpr ⟨⟨x, by simp, hx⟩, fun j y hj hy => ?_⟩
  have hlt : before.length < j := hj
  obtain ⟨k, rfl⟩ : ∃ k, j = before.length + (k + 1) := ⟨j - before.length - 1, by omega⟩
  rw [List.getElem?_append_right (Nat.le_add_right _ _), Nat.add_sub_cancel_left,
    List.getElem?_cons_succ] at hy
  simp [hafter y (List.mem_of_getElem? hy)]

theorem Edge.exists_nearest {p : α → Prop} {xs : List α} (edge : Edge) (h : ∃ x ∈ xs, p x) :
    ∃ i, edge.Nearest p xs i := by
  classical
  obtain ⟨x, hx, hp⟩ := h
  cases hs : edge.search (fun x => decide (p x)) xs with
  | none => simpa [hp] using search_eq_none_iff.mp hs x hx
  | some i => exact ⟨i, by simpa using search_eq_some_iff.mp hs⟩

end Nearest

namespace Directive

-- The child at the place is the one that the directive chooses: one of the first category that
-- occurs, one of any of the categories, or one of none of them.
def Hits (d : Directive) (children : List Tree) (i : Nat) : Prop :=
  match d.direction.selection with
  | .ranked =>
    ∃ before category after, d.categories = before ++ category :: after ∧
      (∀ c ∈ before, ∀ kid ∈ children, kid.basicCategory ≠ c) ∧
        d.direction.edge.Nearest (·.basicCategory = category) children i
  | .listed => d.direction.edge.Nearest (·.basicCategory ∈ d.categories) children i
  | .unlisted => d.direction.edge.Nearest (·.basicCategory ∉ d.categories) children i

theorem Hits.lt {d : Directive} {children : List Tree} {i : Nat} (h : d.Hits children i) :
    i < children.length := by
  unfold Hits at h
  split at h
  · obtain ⟨_, _, _, _, _, hn⟩ := h
    exact hn.lt
  · exact h.lt
  · exact h.lt

theorem choose?_eq_some_iff {d : Directive} {children : List Tree} {i : Nat} :
    d.choose? children = some i ↔ d.Hits children i := by
  unfold choose? Hits
  cases d.direction.selection with
  | ranked =>
      simp only [List.findSome?_eq_some_iff, Edge.search_eq_some_iff, Edge.search_eq_none_iff,
        beq_iff_eq, beq_eq_false_iff_ne]
      constructor
      · rintro ⟨before, category, after, hd, hn, hbefore⟩
        exact ⟨before, category, after, hd, hbefore, hn⟩
      · rintro ⟨before, category, after, hd, hbefore, hn⟩
        exact ⟨before, category, after, hd, hn, hbefore⟩
  | listed => simp [Edge.search_eq_some_iff]
  | unlisted => simp [Edge.search_eq_some_iff]

-- A directive that chooses no child hits none.
theorem choose?_eq_none_iff {d : Directive} {children : List Tree} :
    d.choose? children = none ↔ ∀ i, ¬d.Hits children i := by
  simp only [← choose?_eq_some_iff]
  exact Option.eq_none_iff_forall_not_mem

end Directive

end HeadPercolation
