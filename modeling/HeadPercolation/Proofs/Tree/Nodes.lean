import HeadPercolation.Tree.Basic

namespace HeadPercolation

-- Induction over a tree and the children of its nodes.
@[elab_as_elim, induction_eliminator]
theorem Tree.induction {motive : Tree → Prop} (leaf : ∀ word, motive (.leaf word))
    (node : ∀ label ts, (∀ t ∈ ts, motive t) → motive (.node label ts)) : ∀ t, motive t
  | .leaf word => leaf word
  | .node label ts => node label ts fun t _ => induction leaf node t

namespace Tree

theorem get?_cons_eq_some {t s : Tree} {i : Nat} {path : Path} :
    t.get? (i :: path) = some s ↔ ∃ c, t.children[i]? = some c ∧ c.get? path = some s :=
  Option.bind_eq_some_iff

-- A way down can be gone in two parts.
theorem get?_append (t : Tree) (path way : Path) :
    t.get? (path ++ way) = (t.get? path).bind (·.get? way) := by
  induction path generalizing t with
  | nil => rfl
  | cons i path ih =>
      simp only [List.cons_append, get?]
      cases t.children[i]? with
      | none => rfl
      | some c => exact ih c

theorem get?_singleton (t : Tree) (i : Nat) : t.get? [i] = t.children[i]? := by
  simp [get?]

end Tree

theorem mem_nodesAtEach {path : Path} {i : Nat} {ts : List Tree} {n : Node} :
    n ∈ nodesAtEach path i ts ↔
      ∃ (j : Nat) (t : Tree), ts[j]? = some t ∧ n ∈ t.nodesAt (path ++ [i + j]) := by
  induction ts generalizing i with
  | nil => simp [nodesAtEach]
  | cons t ts ih =>
      rw [nodesAtEach, List.mem_append, ih]
      constructor
      · rintro (hn | ⟨j, s, hs, hn⟩)
        · exact ⟨0, t, rfl, hn⟩
        · exact ⟨j + 1, s, hs, by rwa [Nat.add_assoc, Nat.add_comm 1] at hn⟩
      · rintro ⟨_ | j, s, hs, hn⟩
        · cases hs
          exact Or.inl hn
        · exact Or.inr ⟨j, s, hs, by rwa [Nat.add_assoc, Nat.add_comm 1]⟩

-- The nodes of a tree are those at the ends of its ways down.
theorem Tree.mem_nodesAt {t : Tree} {path : Path} {n : Node} :
    n ∈ t.nodesAt path ↔ ∃ way, n.path = path ++ way ∧ t.get? way = some n.tree := by
  induction t generalizing path with
  | leaf word =>
      rw [nodesAt, List.mem_singleton]
      constructor
      · rintro rfl
        exact ⟨[], by simp, rfl⟩
      · rintro ⟨way, hpath, hget⟩
        cases way with
        | nil =>
            obtain ⟨path', tree⟩ := n
            simp_all [get?]
        | cons i way => simp [get?, children] at hget
  | node label ts ih =>
      rw [nodesAt, List.mem_cons, mem_nodesAtEach]
      constructor
      · rintro (rfl | ⟨j, s, hs, hn⟩)
        · exact ⟨[], by simp, rfl⟩
        · obtain ⟨way, hpath, hget⟩ := (ih s (List.mem_of_getElem? hs)).mp hn
          refine ⟨j :: way, by simp [hpath], get?_cons_eq_some.mpr ⟨s, hs, hget⟩⟩
      · rintro ⟨way, hpath, hget⟩
        cases way with
        | nil =>
            obtain ⟨path', tree⟩ := n
            simp_all [get?]
        | cons i way =>
            obtain ⟨s, hs, hget⟩ := get?_cons_eq_some.mp hget
            refine Or.inr ⟨i, s, hs, ?_⟩
            exact (ih s (List.mem_of_getElem? hs)).mpr ⟨way, by simp [hpath], hget⟩

namespace Node

@[simp] theorem map_tree_children (n : Node) : n.children.map (·.tree) = n.tree.children := by
  apply List.ext_getElem <;> simp [children]

theorem getElem?_children {n : Node} {i : Nat} :
    n.children[i]? = n.tree.children[i]?.map fun t => ⟨n.path ++ [i], t⟩ := by
  simp [children]

theorem getElem?_children_of_lt {n : Node} {i : Nat} (hi : i < n.tree.children.length) :
    n.children[i]? = some ⟨n.path ++ [i], n.tree.children[i]⟩ := by
  rw [getElem?_children, List.getElem?_eq_getElem hi]
  rfl

theorem mem_below {n m : Node} :
    m ∈ n.below ↔ ∃ way, m.path = n.path ++ way ∧ n.tree.get? way = some m.tree :=
  Tree.mem_nodesAt

end Node

end HeadPercolation
