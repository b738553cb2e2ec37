import HeadPercolation.Category

namespace HeadPercolation

-- A constituency tree. A leaf is a word, any other node has a label and children.
inductive Tree where
  | leaf (word : String)
  | node (label : String) (children : List Tree)

-- The way from a node down to another one, as a list of child indices.
abbrev Path := List Nat

namespace Tree

-- The label of a leaf is its word.
def label : Tree → String
  | leaf word => word
  | node label _ => label

def children : Tree → List Tree
  | leaf _ => []
  | node _ children => children

def isLeaf : Tree → Bool
  | leaf _ => true
  | node _ _ => false

-- A node whose only child is a leaf. Its label is a part-of-speech tag.
def isPreterminal : Tree → Bool
  | node _ [leaf _] => true
  | _ => false

-- A node above the preterminals.
def isPhrasal (t : Tree) : Bool :=
  !t.children.isEmpty && !t.isPreterminal

-- The part-of-speech tag of a preterminal.
def tag? (t : Tree) : Option String :=
  if t.isPreterminal then some t.label else none

-- The word of a leaf or of a preterminal.
def word? : Tree → Option String
  | leaf word => some word
  | node _ [leaf word] => some word
  | _ => none

def basicCategory (t : Tree) : String :=
  HeadPercolation.basicCategory t.label

-- Leaves are words and match no tag.
def matchesTag (tag : String) (t : Tree) : Bool :=
  !t.isLeaf && labelMatches tag t.label

def beginsWith (parts : List String) (t : Tree) : Bool :=
  !t.isLeaf && labelBeginsWith parts t.label

-- The node at the end of a path.
def get? (t : Tree) : Path → Option Tree
  | [] => some t
  | i :: path => t.children[i]?.bind (·.get? path)

theorem sizeOf_lt_of_mem {c t : Tree} (h : c ∈ t.children) : sizeOf c < sizeOf t := by
  cases t with
  | leaf _ => simp [children] at h
  | node label ts =>
      have := List.sizeOf_lt_of_mem h
      simp only [children] at this
      simp only [node.sizeOf_spec]
      omega

theorem sizeOf_le_of_get? {t s : Tree} {path : Path} (h : t.get? path = some s) :
    sizeOf s ≤ sizeOf t := by
  induction path generalizing t with
  | nil => simp_all [get?]
  | cons i path ih =>
      obtain ⟨c, hc, hs⟩ := Option.bind_eq_some_iff.mp h
      have hlt := sizeOf_lt_of_mem (List.mem_of_getElem? hc)
      have hle := ih hs
      omega

-- A way down that is not empty leads to a smaller tree.
theorem sizeOf_lt_of_get? {t s : Tree} {i : Nat} {path : Path}
    (h : t.get? (i :: path) = some s) : sizeOf s < sizeOf t := by
  obtain ⟨c, hc, hs⟩ := Option.bind_eq_some_iff.mp h
  have hlt := sizeOf_lt_of_mem (List.mem_of_getElem? hc)
  have hle := sizeOf_le_of_get? hs
  omega

end Tree

-- A node of a tree: its path from the root and the subtree under it.
structure Node where
  path : Path
  tree : Tree

namespace Node

def root (t : Tree) : Node :=
  ⟨[], t⟩

def children (n : Node) : List Node :=
  n.tree.children.mapIdx fun i t => ⟨n.path ++ [i], t⟩

end Node

mutual

-- A node and all below it, each node before its children, which go from left to right.
def Tree.nodesAt (path : Path) : Tree → List Node
  | .leaf word => [⟨path, .leaf word⟩]
  | .node label ts => ⟨path, .node label ts⟩ :: nodesAtEach path 0 ts

def nodesAtEach (path : Path) (i : Nat) : List Tree → List Node
  | [] => []
  | t :: ts => t.nodesAt (path ++ [i]) ++ nodesAtEach path (i + 1) ts

end

namespace Tree

def nodes (t : Tree) : List Node :=
  t.nodesAt []

-- All nodes below the root.
def descendants (t : Tree) : List Node :=
  t.nodes.tail

def leaves (t : Tree) : List Node :=
  t.nodes.filter (·.tree.isLeaf)

def preterminals (t : Tree) : List Node :=
  t.nodes.filter (·.tree.isPreterminal)

-- The part-of-speech tags of the words, from left to right.
def tags (t : Tree) : List String :=
  t.preterminals.map (·.tree.label)

-- The words, separated by single spaces.
def text (t : Tree) : String :=
  " ".intercalate (t.leaves.map (·.tree.label))

end Tree

namespace Node

-- The nodes of a tree that stands at the end of the path of a node.
def below (n : Node) : List Node :=
  n.tree.nodesAt n.path

end Node

end HeadPercolation
