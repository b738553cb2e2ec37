import HeadPercolation.Finder.Basic

namespace HeadPercolation

-- The parent of a node that was reached on a way down.
def Tree.above (t : Tree) : Path → Parent
  | [i] => ⟨t, some i⟩
  | _ => ⟨t, none⟩

theorem sizeOf_append (ts us : List Tree) : sizeOf (ts ++ us) + 1 = sizeOf ts + sizeOf us := by
  induction ts with
  | nil =>
      rw [List.nil_append, List.nil.sizeOf_spec]
      omega
  | cons t ts ih =>
      rw [List.cons_append, List.cons.sizeOf_spec, List.cons.sizeOf_spec]
      omega

theorem sizeOf_reverse (ts : List Tree) : sizeOf ts.reverse = sizeOf ts := by
  induction ts with
  | nil => rfl
  | cons t ts ih =>
      have happend := sizeOf_append ts.reverse [t]
      rw [List.cons.sizeOf_spec, List.nil.sizeOf_spec] at happend
      rw [List.reverse_cons, List.cons.sizeOf_spec]
      omega

theorem Tree.sizeOf_children_le (t : Tree) : sizeOf t.children ≤ sizeOf t := by
  cases t with
  | leaf word =>
      rw [children, leaf.sizeOf_spec, List.nil.sizeOf_spec]
      omega
  | node label ts =>
      rw [children, node.sizeOf_spec]
      omega

-- A node with what is above it.
structure Placed where
  node : Node
  parent : Option Parent

namespace Placed

-- The children of a node, each with the node above it.
def children (p : Placed) : List Placed :=
  p.node.children.mapIdx fun i c => ⟨c, some ⟨p.node.tree, some i⟩⟩

theorem map_tree_children (p : Placed) :
    p.children.map (fun c => c.node.tree) = p.node.tree.children := by
  apply List.ext_getElem <;> simp [children, Node.children]

end Placed

namespace HeadFinder

-- Goes down from a node along the heads until `stop` says so or a leaf is reached.
def descend (hf : HeadFinder) (stop : Tree → Bool) (t : Tree) (parent : Option Parent) :
    Except HeadError Node :=
  if stop t || t.isLeaf then
    .ok (.root t)
  else do
    match ← hf.head t parent with
    | [] => throw (.notBelow t.label)
    | i :: path =>
      match h : t.get? (i :: path) with
      | none => throw (.notBelow t.label)
      | some s =>
        have := Tree.sizeOf_lt_of_get? h
        let n ← hf.descend stop s (some (t.above (i :: path)))
        return { n with path := i :: path ++ n.path }
termination_by sizeOf t

-- The leaf that the heads lead to.
def headTerminal (hf : HeadFinder) (t : Tree) (parent : Option Parent) : Except HeadError Node :=
  hf.descend (fun _ => false) t parent

-- The preterminal that the heads lead to; `none` if they lead to a leaf past all preterminals.
def headPreterminal (hf : HeadFinder) (t : Tree) (parent : Option Parent) :
    Except HeadError (Option Node) := do
  let n ← hf.descend Tree.isPreterminal t parent
  return if n.tree.isLeaf then none else some n

-- Takes the nodes from a stack, the top one first, and puts the children of each that is not a
-- leaf on the stack. The last child is then the next node to be taken.
def headsFrom (hf : HeadFinder) : List Placed → Except HeadError (List (Node × Path))
  | [] => .ok []
  | p :: stack =>
    if p.node.tree.isLeaf then
      hf.headsFrom stack
    else do
      let way ← hf.head p.node.tree p.parent
      let heads ← hf.headsFrom (p.children.reverse ++ stack)
      return (p.node, way) :: heads
termination_by stack => sizeOf (stack.map fun p => p.node.tree)
decreasing_by
  · rw [List.map_cons, List.cons.sizeOf_spec]
    omega
  · have hchildren := p.node.tree.sizeOf_children_le
    have happend := sizeOf_append p.node.tree.children.reverse (stack.map fun p => p.node.tree)
    rw [sizeOf_reverse] at happend
    rw [List.map_append, List.map_reverse, p.map_tree_children, List.map_cons,
      List.cons.sizeOf_spec]
    omega

-- The heads of all nodes of a tree that are not leaves, as ways down from their nodes. Of
-- several errors the one of the rightmost node counts, that of a node before those below it.
def headMap (hf : HeadFinder) (t : Tree) (parent : Option Parent) :
    Except HeadError (List (Node × Path)) :=
  hf.headsFrom [⟨.root t, parent⟩]

end HeadFinder

-- The leaf that a map of heads leads to from a node.
def lexicalHead (heads : Path → Option Path) (n : Node) : Except HeadError Path :=
  if n.tree.isLeaf then
    .ok n.path
  else
    match heads n.path with
    | none | some [] => .error (.notBelow n.tree.label)
    | some (i :: path) =>
      match h : n.tree.get? (i :: path) with
      | none => .error (.notBelow n.tree.label)
      | some s =>
        have := Tree.sizeOf_lt_of_get? h
        lexicalHead heads ⟨n.path ++ i :: path, s⟩
termination_by sizeOf n.tree

-- A dependency between two words, which are numbered from the left.
structure Dependency where
  governor : Nat
  dependent : Nat
deriving DecidableEq

namespace HeadFinder

-- Each child that is not the head of its parent depends on it, word on word.
def dependencies (hf : HeadFinder) (t : Tree) : Except HeadError (List Dependency) := do
  let heads ← hf.headMap t none
  let headOf path := (heads.find? (·.1.path == path)).map (·.2)
  let number path := t.leaves.findIdx (·.path == path)
  let lists ← heads.mapM fun (n, way) => do
    let governor ← match n.tree.get? way with
      | some s => lexicalHead headOf ⟨n.path ++ way, s⟩
      | none => throw (.notBelow n.tree.label)
    let others := n.children.filter (·.path != n.path ++ way)
    others.mapM fun child => do
      return (⟨number governor, number (← lexicalHead headOf child)⟩ : Dependency)
  return lists.flatten.eraseDups

end HeadFinder

end HeadPercolation
