import HeadPercolation.Finder.Percolation
import HeadPercolation.Proofs.Tree.Leaves
import Mathlib.Data.List.Perm.Basic
import Mathlib.Logic.Relation

namespace HeadPercolation

open scoped List

-- Does a map of heads name a child for each node of a tree that is not a leaf?
def Headed (heads : Path → Option Path) (n : Node) : Prop :=
  ∀ m ∈ n.below, m.tree.isLeaf = false →
    ∃ i < m.tree.children.length, heads m.path = some [i]

-- The place of the leaf that the heads lead to, and of the node itself if they lead nowhere.
def headWord (heads : Path → Option Path) (n : Node) : Path :=
  match lexicalHead heads n with
  | .ok word => word
  | .error _ => n.path

-- The children that are not the head of a node.
def sisters (heads : Path → Option Path) (n : Node) : List Node :=
  n.children.filter (·.path != n.path ++ (heads n.path).getD [])

-- From the word of a node to the words of those of its children that are not its head.
def arcsOf (heads : Path → Option Path) (n : Node) : List (Path × Path) :=
  (sisters heads n).map fun c => (headWord heads n, headWord heads c)

def arcsBelow (heads : Path → Option Path) (n : Node) : List (Path × Path) :=
  n.below.flatMap (arcsOf heads)

section Arcs

variable {heads : Path → Option Path} {n c : Node}

theorem Headed.of_mem_below (h : Headed heads n) (hc : c ∈ n.below) : Headed heads c :=
  fun m hm => h m (Node.below_subset_of_mem_below hc hm)

theorem Headed.of_mem_children (h : Headed heads n) (hc : c ∈ n.children) : Headed heads c :=
  h.of_mem_below (Node.mem_below_of_mem_children hc)

theorem Headed.exists_head (h : Headed heads n) (hinner : n.tree.isLeaf = false) :
    ∃ (i : Nat) (c : Node), heads n.path = some [i] ∧ n.children[i]? = some c ∧
      c.path = n.path ++ [i] := by
  obtain ⟨i, hi, hhead⟩ := h n n.mem_below_self hinner
  exact ⟨i, _, hhead, Node.getElem?_children_of_lt hi, rfl⟩

-- The word of a node is that of its head.
theorem lexicalHead_of_head {i : Nat} (hinner : n.tree.isLeaf = false)
    (hhead : heads n.path = some [i]) (hc : n.children[i]? = some c) :
    lexicalHead heads n = lexicalHead heads c := by
  rw [Node.getElem?_children] at hc
  obtain ⟨t, ht, rfl⟩ := Option.map_eq_some_iff.mp hc
  have hget : n.tree.get? [i] = some t := (Tree.get?_singleton n.tree i).trans ht
  rw [lexicalHead]
  simp only [hinner, Bool.false_eq_true, if_false]
  split
  · rename_i hnone
    simp [hhead] at hnone
  · rename_i hnil
    simp [hhead] at hnil
  · rename_i j path hsome
    obtain ⟨rfl, rfl⟩ : i = j ∧ [] = path := by simpa [hhead] using hsome
    split
    · rename_i hnone
      simp [hget] at hnone
    · rename_i s hs
      obtain rfl : t = s := by simpa [hget] using hs
      rfl

theorem lexicalHead_of_isLeaf (hleaf : n.tree.isLeaf = true) :
    lexicalHead heads n = .ok n.path := by
  rw [lexicalHead, if_pos hleaf]

theorem Headed.lexicalHead_eq (h : Headed heads n) :
    lexicalHead heads n = .ok (headWord heads n) := by
  have hex : ∃ word, lexicalHead heads n = .ok word := by
    induction n using Node.induction with
    | step n ih =>
        cases hleaf : n.tree.isLeaf with
        | true => exact ⟨n.path, lexicalHead_of_isLeaf hleaf⟩
        | false =>
            obtain ⟨i, c, hhead, hc, -⟩ := h.exists_head hleaf
            have hmem := List.mem_of_getElem? hc
            rw [lexicalHead_of_head hleaf hhead hc]
            exact ih c hmem (h.of_mem_children hmem)
  obtain ⟨word, hword⟩ := hex
  rw [headWord, hword]

theorem headWord_of_isLeaf (hleaf : n.tree.isLeaf = true) : headWord heads n = n.path := by
  rw [headWord, lexicalHead_of_isLeaf hleaf]

theorem Headed.headWord_of_head (h : Headed heads n) {i : Nat} (hinner : n.tree.isLeaf = false)
    (hhead : heads n.path = some [i]) (hc : n.children[i]? = some c) :
    headWord heads n = headWord heads c := by
  have hlower := h.of_mem_children (List.mem_of_getElem? hc)
  rw [headWord, lexicalHead_of_head hinner hhead hc, hlower.lexicalHead_eq]

-- The head and its sisters are the children.
theorem children_perm {i : Nat} (hhead : heads n.path = some [i]) (hc : n.children[i]? = some c)
    (hpath : c.path = n.path ++ [i]) : n.children ~ c :: sisters heads n := by
  have hnodup := n.nodup_map_path_children
  have hsisters : sisters heads n = n.children.filter (·.path != c.path) := by
    rw [sisters, hhead, hpath]
    rfl
  obtain ⟨before, after, hsplit⟩ := List.append_of_mem (List.mem_of_getElem? hc)
  rw [hsplit, List.map_append, List.map_cons, List.nodup_middle, List.nodup_cons,
    ← List.map_append] at hnodup
  have hothers : (before ++ after).filter (·.path != c.path) = before ++ after := by
    rw [List.filter_eq_self]
    intro m hm
    have hne : m.path ≠ c.path := fun he => hnodup.1 (List.mem_map.mpr ⟨m, hm, he⟩)
    simpa using hne
  have hfilter : n.children.filter (·.path != c.path) = before ++ after := by
    rw [hsplit, List.filter_append, List.filter_cons_of_neg (by simp), ← List.filter_append,
      hothers]
  rw [hsisters, hfilter, hsplit]
  exact List.perm_middle

theorem arcsOf_of_isLeaf (hleaf : n.tree.isLeaf = true) : arcsOf heads n = [] := by
  rw [arcsOf, sisters, Node.children_of_isLeaf hleaf]
  rfl

theorem arcsBelow_eq (heads : Path → Option Path) (n : Node) :
    arcsBelow heads n = arcsOf heads n ++ n.children.flatMap (arcsBelow heads) := by
  rw [arcsBelow, n.below_eq, List.flatMap_cons, List.flatMap_assoc]
  rfl

theorem arcsBelow_subset (hc : c ∈ n.below) : arcsBelow heads c ⊆ arcsBelow heads n := by
  intro a ha
  obtain ⟨m, hm, ham⟩ := List.mem_flatMap.mp ha
  exact List.mem_flatMap.mpr ⟨m, Node.below_subset_of_mem_below hc hm, ham⟩

-- Each word under a node depends on exactly one other there, but for the word of the node.
theorem Headed.dependents_perm (h : Headed heads n) :
    headWord heads n :: (arcsBelow heads n).map Prod.snd ~ n.wordPaths := by
  induction n using Node.induction with
  | step n ih =>
      cases hleaf : n.tree.isLeaf with
      | true =>
          have harcs : arcsBelow heads n = [] := by
            rw [arcsBelow_eq, arcsOf_of_isLeaf hleaf, Node.children_of_isLeaf hleaf]
            rfl
          rw [headWord_of_isLeaf hleaf, harcs, Node.wordPaths, Node.leaves_of_isLeaf hleaf]
          exact List.Perm.refl _
      | false =>
          obtain ⟨i, c, hhead, hc, hpath⟩ := h.exists_head hleaf
          have hwords : headWord heads n :: (arcsOf heads n).map Prod.snd ~
              n.children.map (headWord heads) := by
            have hmap := (children_perm hhead hc hpath).map (headWord heads)
            rw [h.headWord_of_head hleaf hhead hc, arcsOf, List.map_map]
            exact hmap.symm
          calc headWord heads n :: (arcsBelow heads n).map Prod.snd
              = (headWord heads n :: (arcsOf heads n).map Prod.snd) ++
                  n.children.flatMap (fun k => (arcsBelow heads k).map Prod.snd) := by
                rw [arcsBelow_eq, List.map_append, List.map_flatMap]
                rfl
            _ ~ n.children.map (headWord heads) ++
                  n.children.flatMap (fun k => (arcsBelow heads k).map Prod.snd) :=
                hwords.append_right _
            _ ~ n.children.flatMap
                  (fun k => headWord heads k :: (arcsBelow heads k).map Prod.snd) :=
                List.map_append_flatMap_perm _ _ _
            _ ~ n.children.flatMap Node.wordPaths :=
                List.Perm.flatMap_left _ fun k hk => ih k hk (h.of_mem_children hk)
            _ = n.wordPaths := by
                rw [Node.wordPaths, Node.leaves_of_not_isLeaf hleaf, List.map_flatMap]
                rfl

-- All words under a node are reached from its word along the arcs there.
theorem Headed.reaches (h : Headed heads n) {leaf : Node} (hm : leaf ∈ n.leaves) :
    Relation.ReflTransGen (fun g d => (g, d) ∈ arcsBelow heads n) (headWord heads n) leaf.path := by
  induction n using Node.induction with
  | step n ih =>
      cases hleaf : n.tree.isLeaf with
      | true =>
          rw [Node.leaves_of_isLeaf hleaf, List.mem_singleton] at hm
          subst hm
          rw [headWord_of_isLeaf hleaf]
      | false =>
          rw [Node.leaves_of_not_isLeaf hleaf] at hm
          obtain ⟨k, hk, hmk⟩ := List.mem_flatMap.mp hm
          have hsubset : arcsBelow heads k ⊆ arcsBelow heads n :=
            arcsBelow_subset (Node.mem_below_of_mem_children hk)
          have hreaches := ih k hk (h.of_mem_children hk) hmk
          have hbelow := Relation.ReflTransGen.mono (fun g d hgd => hsubset hgd) _ _ hreaches
          obtain ⟨i, c, hhead, hc, hpath⟩ := h.exists_head hleaf
          cases List.mem_cons.mp ((children_perm hhead hc hpath).mem_iff.mp hk) with
          | inl hkc =>
              subst hkc
              rwa [h.headWord_of_head hleaf hhead hc]
          | inr hks =>
              refine .head ?_ hbelow
              rw [arcsBelow_eq]
              exact List.mem_append_left _ (List.mem_map.mpr ⟨k, hks, rfl⟩)

theorem Headed.headWord_mem (h : Headed heads n) :
    headWord heads n ∈ n.wordPaths :=
  h.dependents_perm.subset List.mem_cons_self

end Arcs

end HeadPercolation
