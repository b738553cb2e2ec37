import HeadPercolation.Proofs.Tree.Nodes
import Mathlib.Data.List.Infix
import Mathlib.Data.List.Nodup

namespace HeadPercolation

theorem nodesAtEach_eq_flatMap (path : Path) (i : Nat) (ts : List Tree) :
    nodesAtEach path i ts = (ts.mapIdx fun j t => (⟨path ++ [i + j], t⟩ : Node)).flatMap
      Node.below := by
  induction ts generalizing i with
  | nil => rfl
  | cons t ts ih =>
      rw [nodesAtEach, ih, List.mapIdx_cons, List.flatMap_cons]
      simp only [Node.below, Nat.add_zero, Nat.add_assoc, Nat.add_comm 1]

namespace Node

-- A node comes first, then the nodes below each of its children.
theorem below_eq (n : Node) : n.below = n :: n.children.flatMap below := by
  obtain ⟨path, tree⟩ := n
  cases tree with
  | leaf word => rfl
  | node label ts =>
      simp only [below, Tree.nodesAt, nodesAtEach_eq_flatMap, Nat.zero_add]
      rfl

theorem sizeOf_lt_of_mem_children {n c : Node} (h : c ∈ n.children) :
    sizeOf c.tree < sizeOf n.tree := by
  apply Tree.sizeOf_lt_of_mem
  rw [← map_tree_children]
  exact List.mem_map_of_mem h

-- Induction over a node and its children, wherever they stand.
@[elab_as_elim]
theorem induction {motive : Node → Prop}
    (step : ∀ n, (∀ c ∈ n.children, motive c) → motive n) (n : Node) : motive n :=
  step n fun c h =>
    have := sizeOf_lt_of_mem_children h
    induction step c
termination_by sizeOf n.tree

-- The leaves under a node, from left to right.
def leaves (n : Node) : List Node :=
  n.below.filter (·.tree.isLeaf)

theorem children_of_isLeaf {n : Node} (h : n.tree.isLeaf = true) : n.children = [] := by
  obtain ⟨path, tree⟩ := n
  cases tree with
  | leaf word => rfl
  | node label ts => simp [Tree.isLeaf] at h

theorem isLeaf_of_mem_children {n c : Node} (h : c ∈ n.children) : n.tree.isLeaf = false := by
  cases hleaf : n.tree.isLeaf with
  | false => rfl
  | true => simp [children_of_isLeaf hleaf] at h

theorem leaves_of_isLeaf {n : Node} (h : n.tree.isLeaf = true) : n.leaves = [n] := by
  rw [leaves, below_eq, children_of_isLeaf h]
  simp [h]

theorem leaves_of_not_isLeaf {n : Node} (h : n.tree.isLeaf = false) :
    n.leaves = n.children.flatMap leaves := by
  rw [leaves, below_eq, List.filter_cons_of_neg (by simp [h]), List.filter_flatMap]
  rfl

theorem mem_below_self (n : Node) : n ∈ n.below := by
  rw [below_eq]
  exact List.mem_cons_self

theorem mem_below_of_mem_children {n c : Node} (h : c ∈ n.children) : c ∈ n.below := by
  rw [n.below_eq]
  exact List.mem_cons_of_mem n (List.mem_flatMap.mpr ⟨c, h, c.mem_below_self⟩)

theorem below_subset_of_mem_below {n m : Node} (h : m ∈ n.below) : m.below ⊆ n.below := by
  intro k hk
  obtain ⟨way, hpath, hget⟩ := mem_below.mp h
  obtain ⟨way', hpath', hget'⟩ := mem_below.mp hk
  refine mem_below.mpr ⟨way ++ way', by rw [hpath', hpath, List.append_assoc], ?_⟩
  rw [Tree.get?_append, hget]
  exact hget'

-- The leaves under a lower node stand next to each other.
theorem leaves_infix_of_mem_below {n m : Node} (h : m ∈ n.below) : m.leaves <:+: n.leaves := by
  induction n using induction with
  | step n ih =>
      rw [below_eq] at h
      cases List.mem_cons.mp h with
      | inl h =>
          subst h
          exact List.infix_rfl
      | inr h =>
          obtain ⟨c, hc, hm⟩ := List.mem_flatMap.mp h
          rw [leaves_of_not_isLeaf (isLeaf_of_mem_children hc), List.flatMap_def]
          exact (ih c hc hm).trans (List.infix_of_mem_flatten (List.mem_map_of_mem hc))

-- Different nodes stand at different places.
theorem nodup_map_path_below (n : Node) : (n.below.map path).Nodup := by
  induction n using induction with
  | step n ih =>
      have hplace {i : Nat} {c m : Node} (hc : n.children[i]? = some c) (hm : m ∈ c.below) :
          ∃ way, m.path = n.path ++ i :: way := by
        rw [getElem?_children] at hc
        obtain ⟨t, -, rfl⟩ := Option.map_eq_some_iff.mp hc
        obtain ⟨way, hway, -⟩ := mem_below.mp hm
        exact ⟨way, by simp [hway]⟩
      rw [below_eq, List.map_cons, List.nodup_cons, List.map_flatMap, List.nodup_flatMap]
      refine ⟨?_, ih, ?_⟩
      · intro hself
        obtain ⟨c, hc, hm⟩ := List.mem_flatMap.mp hself
        obtain ⟨m, hm, hpath⟩ := List.mem_map.mp hm
        obtain ⟨i, hi⟩ := List.mem_iff_getElem?.mp hc
        obtain ⟨way, hway⟩ := hplace hi hm
        simp [hway] at hpath
      · rw [List.pairwise_iff_getElem]
        intro i j hi hj hij p hpi hpj
        obtain ⟨m, hm, rfl⟩ := List.mem_map.mp hpi
        obtain ⟨m', hm', hpath⟩ := List.mem_map.mp hpj
        obtain ⟨way, hway⟩ := hplace (List.getElem?_eq_getElem hi) hm
        obtain ⟨way', hway'⟩ := hplace (List.getElem?_eq_getElem hj) hm'
        have hsame : j = i := by
          rw [hway, hway'] at hpath
          simpa using (List.cons.inj (List.append_cancel_left hpath)).1
        omega

-- The places of the words under a node.
def wordPaths (n : Node) : List Path :=
  n.leaves.map (·.path)

theorem wordPaths_infix_of_mem_below {n m : Node} (h : m ∈ n.below) :
    m.wordPaths <:+: n.wordPaths :=
  (leaves_infix_of_mem_below h).map _

theorem nodup_wordPaths (n : Node) : n.wordPaths.Nodup :=
  n.nodup_map_path_below.sublist (List.filter_sublist.map _)

theorem eq_of_path_eq (n : Node) {m m' : Node} (hm : m ∈ n.below) (hm' : m' ∈ n.below)
    (h : m.path = m'.path) : m = m' :=
  List.inj_on_of_nodup_map n.nodup_map_path_below hm hm' h

theorem nodup_map_path_children (n : Node) : (n.children.map path).Nodup := by
  rw [List.nodup_iff_injective_getElem]
  intro i j hij
  apply Fin.ext
  simpa [children] using hij

end Node

end HeadPercolation
