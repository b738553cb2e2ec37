import HeadPercolation.Proofs.Finder.Arcs
import HeadPercolation.Proofs.Results

namespace HeadPercolation

mutual

-- The nodes that have heads, each before those below it, and children from right to left.
def Tree.headedAt (path : Path) (parent : Option Parent) : Tree → List Placed
  | .leaf _ => []
  | .node label ts => ⟨⟨path, .node label ts⟩, parent⟩ :: headedEach path (.node label ts) 0 ts

def headedEach (path : Path) (parent : Tree) (i : Nat) : List Tree → List Placed
  | [] => []
  | t :: ts =>
    headedEach path parent (i + 1) ts ++ t.headedAt (path ++ [i]) (some ⟨parent, some i⟩)

end

-- The nodes of the tree of a placed node that have heads.
def Placed.headed (p : Placed) : List Placed :=
  p.node.tree.headedAt p.node.path p.parent

-- What is above the node at the end of a way down.
def Tree.parentAt (t : Tree) (above : Option Parent) : Path → Option Parent
  | [] => above
  | i :: path =>
    match t.children[i]? with
    | some c => c.parentAt (some ⟨t, some i⟩) path
    | none => none

-- Does the finder succeed for a node, with one of its children as the head?
def HeadFinder.FindsChild (hf : HeadFinder) (s : Tree) (parent : Option Parent) : Prop :=
  ∃ i < s.children.length, hf.head s parent = .ok [i]

-- Does it succeed so for each node of a tree that is not a leaf?
def HeadFinder.FindsChildren (hf : HeadFinder) (t : Tree) (above : Option Parent) : Prop :=
  ∀ way s, t.get? way = some s → s.isLeaf = false → hf.FindsChild s (t.parentAt above way)

namespace Tree

theorem parentAt_cons {t c : Tree} {i : Nat} (h : t.children[i]? = some c)
    (above : Option Parent) (path : Path) :
    t.parentAt above (i :: path) = c.parentAt (some ⟨t, some i⟩) path := by
  rw [parentAt, h]

theorem parentAt_append_singleton {t s : Tree} {way : Path} (h : t.get? way = some s)
    (above : Option Parent) {i : Nat} (hi : i < s.children.length) :
    t.parentAt above (way ++ [i]) = some ⟨s, some i⟩ := by
  induction way generalizing t above with
  | nil =>
      cases h
      exact parentAt_cons (List.getElem?_eq_getElem hi) above []
  | cons j way ih =>
      obtain ⟨c, hc, hget⟩ := get?_cons_eq_some.mp h
      rw [List.cons_append, parentAt_cons hc]
      exact ih hget _

end Tree

theorem mem_headedEach {path : Path} {parent : Tree} {i : Nat} {ts : List Tree} {p : Placed} :
    p ∈ headedEach path parent i ts ↔
      ∃ (j : Nat) (t : Tree), ts[j]? = some t ∧
        p ∈ t.headedAt (path ++ [i + j]) (some ⟨parent, some (i + j)⟩) := by
  induction ts generalizing i with
  | nil => simp [headedEach]
  | cons t ts ih =>
      rw [headedEach, List.mem_append, ih]
      constructor
      · rintro (⟨j, s, hs, hp⟩ | hp)
        · exact ⟨j + 1, s, hs, by rwa [Nat.add_assoc, Nat.add_comm 1] at hp⟩
        · exact ⟨0, t, rfl, hp⟩
      · rintro ⟨_ | j, s, hs, hp⟩
        · cases hs
          exact Or.inr hp
        · exact Or.inl ⟨j, s, hs, by rwa [Nat.add_assoc, Nat.add_comm 1]⟩

-- The walk over a tree meets each node that is not a leaf, with what is above it.
theorem Tree.mem_headedAt {t : Tree} {path : Path} {above : Option Parent} {p : Placed} :
    p ∈ t.headedAt path above ↔
      ∃ way, p.node.path = path ++ way ∧ t.get? way = some p.node.tree ∧
        p.node.tree.isLeaf = false ∧ p.parent = t.parentAt above way := by
  induction t generalizing path above with
  | leaf word =>
      rw [headedAt]
      constructor
      · intro h
        cases h
      · rintro ⟨way, -, hget, hinner, -⟩
        cases way with
        | nil =>
            rw [← Option.some.inj hget] at hinner
            cases hinner
        | cons i way => simp [get?, children] at hget
  | node label ts ih =>
      have hchild {j : Nat} {s : Tree} (hs : ts[j]? = some s) :
          (Tree.node label ts).children[j]? = some s := hs
      rw [headedAt, List.mem_cons, mem_headedEach]
      simp only [Nat.zero_add]
      constructor
      · rintro (rfl | ⟨j, s, hs, hp⟩)
        · exact ⟨[], by simp, rfl, rfl, rfl⟩
        · obtain ⟨way, hpath, hget, hinner, hparent⟩ := (ih s (List.mem_of_getElem? hs)).mp hp
          refine ⟨j :: way, by simp [hpath], get?_cons_eq_some.mpr ⟨s, hs, hget⟩, hinner, ?_⟩
          rw [parentAt_cons (hchild hs), hparent]
      · rintro ⟨way, hpath, hget, hinner, hparent⟩
        cases way with
        | nil =>
            obtain ⟨⟨path', tree⟩, parent⟩ := p
            simp_all [get?, parentAt]
        | cons j way =>
            obtain ⟨s, hs, hget⟩ := get?_cons_eq_some.mp hget
            rw [parentAt_cons hs] at hparent
            refine Or.inr ⟨j, s, hs, (ih s (List.mem_of_getElem? hs)).mpr ?_⟩
            exact ⟨way, by simp [hpath], hget, hinner, hparent⟩

open scoped List in
mutual

-- The walk meets all nodes that are not leaves, and each of them once.
theorem Tree.map_node_headedAt_perm (path : Path) (above : Option Parent) (t : Tree) :
    (t.headedAt path above).map (·.node) ~ (t.nodesAt path).filter (!·.tree.isLeaf) := by
  cases t with
  | leaf word => simp [Tree.headedAt, Tree.nodesAt, Tree.isLeaf]
  | node label ts =>
      rw [Tree.headedAt, Tree.nodesAt, List.map_cons, List.filter_cons_of_pos rfl]
      exact (map_node_headedEach_perm path (.node label ts) 0 ts).cons _

theorem map_node_headedEach_perm (path : Path) (parent : Tree) (i : Nat) (ts : List Tree) :
    (headedEach path parent i ts).map (·.node) ~
      (nodesAtEach path i ts).filter (!·.tree.isLeaf) := by
  cases ts with
  | nil => simp [headedEach, nodesAtEach]
  | cons t ts =>
      rw [headedEach, nodesAtEach, List.map_append, List.filter_append]
      exact List.perm_append_comm.trans
        ((Tree.map_node_headedAt_perm _ _ t).append (map_node_headedEach_perm path parent _ ts))

end

theorem headedEach_eq_flatMap (path : Path) (parent : Tree) (i : Nat) (ts : List Tree) :
    headedEach path parent i ts =
      (ts.mapIdx fun j t =>
        (⟨⟨path ++ [i + j], t⟩, some ⟨parent, some (i + j)⟩⟩ : Placed)).reverse.flatMap
          Placed.headed := by
  induction ts generalizing i with
  | nil => rfl
  | cons t ts ih =>
      rw [headedEach, ih, List.mapIdx_cons, List.reverse_cons, List.flatMap_append,
        List.flatMap_singleton]
      simp only [Placed.headed, Nat.add_zero, Nat.add_assoc, Nat.add_comm 1]

namespace Placed

theorem headed_of_isLeaf {p : Placed} (h : p.node.tree.isLeaf = true) : p.headed = [] := by
  obtain ⟨⟨path, tree⟩, parent⟩ := p
  cases tree with
  | leaf word => rfl
  | node label ts => cases h

-- A node comes first, then those below its children, from the last child to the first.
theorem headed_of_not_isLeaf {p : Placed} (h : p.node.tree.isLeaf = false) :
    p.headed = p :: p.children.reverse.flatMap headed := by
  obtain ⟨⟨path, tree⟩, parent⟩ := p
  cases tree with
  | leaf word => cases h
  | node label ts =>
      rw [headed, Tree.headedAt, headedEach_eq_flatMap]
      simp only [Nat.zero_add, children, Node.children, List.mapIdx_mapIdx]
      rfl

end Placed

namespace HeadFinder

variable {hf : HeadFinder} {t : Tree} {above : Option Parent}

-- The entry of a node in a map of heads.
def headEntry (hf : HeadFinder) (p : Placed) : Except HeadError (Node × Path) := do
  let way ← hf.head p.node.tree p.parent
  return (p.node, way)

-- What is left to do is the entries of all nodes below those on the stack.
theorem headsFrom_eq_mapM (hf : HeadFinder) (stack : List Placed) :
    hf.headsFrom stack = (stack.flatMap Placed.headed).mapM hf.headEntry := by
  fun_induction hf.headsFrom stack with
  | case1 => rfl
  | case2 p stack hleaf ih => rw [ih, List.flatMap_cons, Placed.headed_of_isLeaf hleaf]; rfl
  | case3 p stack hinner ih =>
      rw [Bool.not_eq_true] at hinner
      rw [List.flatMap_cons, Placed.headed_of_not_isLeaf hinner, List.cons_append,
        ← List.flatMap_append, List.mapM_cons, ← ih]
      rw [headEntry]
      cases hf.head p.node.tree p.parent <;> rfl

theorem headMap_eq_mapM (hf : HeadFinder) (t : Tree) (above : Option Parent) :
    hf.headMap t above = (t.headedAt [] above).mapM hf.headEntry := by
  rw [headMap, headsFrom_eq_mapM, List.flatMap_singleton]
  rfl

instance (s : Tree) (parent : Option Parent) : Decidable (hf.FindsChild s parent) :=
  match h : hf.head s parent with
  | .ok [i] => decidable_of_iff (i < s.children.length) (by simp [FindsChild, h])
  | .ok [] => isFalse (by simp [FindsChild, h])
  | .ok (_ :: _ :: _) => isFalse (by simp [FindsChild, h])
  | .error _ => isFalse (by simp [FindsChild, h])

theorem findsChildren_iff :
    hf.FindsChildren t above ↔ ∀ p ∈ t.headedAt [] above, hf.FindsChild p.node.tree p.parent := by
  constructor
  · intro h p hp
    obtain ⟨way, -, hget, hinner, hparent⟩ := Tree.mem_headedAt.mp hp
    exact hparent ▸ h way p.node.tree hget hinner
  · intro h way s hget hinner
    exact h ⟨⟨way, s⟩, t.parentAt above way⟩ (Tree.mem_headedAt.mpr ⟨way, rfl, hget, hinner, rfl⟩)

instance : Decidable (hf.FindsChildren t above) :=
  decidable_of_iff _ findsChildren_iff.symm

theorem headIndex_of_head {s : Tree} {parent : Option Parent} {i : Nat}
    (hinner : s.isLeaf = false) (hhead : hf.head s parent = .ok [i]) :
    hf.headIndex s parent = .ok i := by
  simp only [headIndex, hinner, Bool.false_eq_true, if_false]
  rw [bind_of_eq_ok hhead]
  rfl

-- A step down from a node whose head is a child.
theorem descend_of_head {stop : Tree → Bool} {s c : Tree} {parent : Option Parent} {i : Nat}
    (hstop : stop s = false) (hinner : s.isLeaf = false) (hhead : hf.head s parent = .ok [i])
    (hc : s.children[i]? = some c) :
    hf.descend stop s parent = (do
      let n ← hf.descend stop c (some ⟨s, some i⟩)
      return { n with path := i :: n.path }) := by
  have hget : s.get? [i] = some c := (Tree.get?_singleton s i).trans hc
  rw [descend, hstop, hinner]
  simp only [Bool.or_self, Bool.false_eq_true, if_false]
  rw [bind_of_eq_ok hhead]
  dsimp only
  split
  · rename_i hnone
    simp [hget] at hnone
  · rename_i s' hs
    obtain rfl : c = s' := by simpa [hget] using hs
    rfl

-- The way down to the head of a node of a tree, and no way if the finder fails.
def headWay (hf : HeadFinder) (t : Tree) (above : Option Parent) (n : Node) : Path :=
  match hf.head n.tree (t.parentAt above n.path) with
  | .ok way => way
  | .error _ => []

-- The nodes of a tree that have heads, in the order of the map of heads.
def headedNodes (t : Tree) (above : Option Parent) : List Node :=
  (t.headedAt [] above).map (·.node)

theorem mem_headedNodes {n : Node} :
    n ∈ headedNodes t above ↔ n ∈ (Node.root t).below ∧ n.tree.isLeaf = false := by
  rw [headedNodes, (Tree.map_node_headedAt_perm [] above t).mem_iff, List.mem_filter,
    Bool.not_eq_true']
  rfl

theorem FindsChildren.head_eq_ok (h : hf.FindsChildren t above) {n : Node}
    (hn : n ∈ (Node.root t).below) (hinner : n.tree.isLeaf = false) :
    ∃ i < n.tree.children.length, hf.headWay t above n = [i] ∧
      hf.head n.tree (t.parentAt above n.path) = .ok [i] := by
  obtain ⟨way, hpath, hget⟩ := Node.mem_below.mp hn
  obtain ⟨i, hi, hhead⟩ := h way n.tree hget hinner
  have hway : n.path = way := hpath
  rw [← hway] at hhead
  exact ⟨i, hi, by simp only [headWay, hhead], hhead⟩

-- The map of heads is complete and has the heads that the finder gives.
theorem FindsChildren.headMap_eq_ok (h : hf.FindsChildren t above) :
    hf.headMap t above =
      .ok ((headedNodes t above).map fun n => (n, hf.headWay t above n)) := by
  have hmap := List.map_map (l := t.headedAt [] above) (f := (·.node))
    (g := fun n => (n, hf.headWay t above n))
  rw [headMap_eq_mapM, headedNodes, hmap]
  apply mapM_eq_ok_map
  intro p hp
  obtain ⟨way, hpath, hget, hinner, hparent⟩ := Tree.mem_headedAt.mp hp
  obtain ⟨i, -, hway, hhead⟩ := h.head_eq_ok (Node.mem_below.mpr ⟨way, hpath, hget⟩) hinner
  rw [List.nil_append] at hpath
  rw [hpath, ← hparent] at hhead
  rw [headEntry, bind_of_eq_ok hhead, Function.comp_apply, hway]
  rfl

-- The head that a map of heads has for the node at a place.
def headAt (heads : List (Node × Path)) (path : Path) : Option Path :=
  (heads.find? (·.1.path == path)).map (·.2)

-- The heads of a tree as its map of heads has them.
def headsOf (hf : HeadFinder) (t : Tree) (above : Option Parent) : Path → Option Path :=
  headAt ((headedNodes t above).map fun n => (n, hf.headWay t above n))

theorem headsOf_path {n : Node} (hn : n ∈ headedNodes t above) :
    hf.headsOf t above n.path = some (hf.headWay t above n) := by
  have hfind : (headedNodes t above).find? (·.path == n.path) = some n := by
    cases hm : (headedNodes t above).find? (·.path == n.path) with
    | none => simpa using List.find?_eq_none.mp hm n hn
    | some m =>
        have hmem := (mem_headedNodes.mp (List.mem_of_find?_eq_some hm)).1
        have hpath : m.path = n.path := by simpa using List.find?_some hm
        exact congrArg some ((Node.root t).eq_of_path_eq hmem (mem_headedNodes.mp hn).1 hpath)
  rw [headsOf, headAt, List.find?_map]
  simp only [Function.comp_def, hfind]
  rfl

theorem FindsChildren.headed (h : hf.FindsChildren t above) :
    Headed (hf.headsOf t above) (Node.root t) := by
  intro n hn hinner
  obtain ⟨i, hi, hway, -⟩ := h.head_eq_ok hn hinner
  exact ⟨i, hi, by rw [headsOf_path (mem_headedNodes.mpr ⟨hn, hinner⟩), hway]⟩

-- The way down from a node along its heads ends at its word.
theorem FindsChildren.descend_eq_ok (h : hf.FindsChildren t above) {n : Node}
    (hn : n ∈ (Node.root t).below) :
    ∃ m, hf.descend (fun _ => false) n.tree (t.parentAt above n.path) = .ok m ∧
      ⟨n.path ++ m.path, m.tree⟩ ∈ n.leaves ∧
        n.path ++ m.path = headWord (hf.headsOf t above) n := by
  induction n using Node.induction with
  | step n ih =>
      cases hleaf : n.tree.isLeaf with
      | true =>
          refine ⟨.root n.tree, ?_, ?_, ?_⟩
          · rw [descend, hleaf]
            rfl
          · rw [Node.leaves_of_isLeaf hleaf]
            simp [Node.root]
          · rw [headWord_of_isLeaf hleaf]
            exact List.append_nil _
      | false =>
          obtain ⟨i, hi, hway, hhead⟩ := h.head_eq_ok hn hleaf
          have hget : n.tree.children[i]? = some n.tree.children[i] := List.getElem?_eq_getElem hi
          have hc := Node.getElem?_children_of_lt hi
          have hmem := List.mem_of_getElem? hc
          have hbelow := Node.below_subset_of_mem_below hn (Node.mem_below_of_mem_children hmem)
          obtain ⟨way, hpath, htree⟩ := Node.mem_below.mp hn
          have hparent : t.parentAt above (n.path ++ [i]) = some ⟨n.tree, some i⟩ := by
            rw [hpath]
            exact Tree.parentAt_append_singleton htree above hi
          obtain ⟨m, hm, hleaves, hword⟩ := ih _ hmem hbelow
          rw [hparent] at hm
          refine ⟨⟨i :: m.path, m.tree⟩, ?_, ?_, ?_⟩
          · rw [descend_of_head rfl hleaf hhead hget, bind_of_eq_ok hm]
            rfl
          · rw [Node.leaves_of_not_isLeaf hleaf]
            exact List.mem_flatMap.mpr ⟨_, hmem, by simpa using hleaves⟩
          · have hheads : hf.headsOf t above n.path = some [i] := by
              rw [headsOf_path (mem_headedNodes.mpr ⟨hn, hleaf⟩), hway]
            rw [(h.headed.of_mem_below hn).headWord_of_head hleaf hheads hc, ← hword]
            simp

end HeadFinder

end HeadPercolation
