import HeadPercolation.Proofs.Finder.Percolation
import Mathlib.Data.List.Lex

namespace HeadPercolation

-- Does the walk over a tree come to one place before another? It does if the node at the one
-- stands above the other, or further to the right where the ways to them part.
def MetBefore (path other : Path) : Prop :=
  List.Lex (· > ·) path other

namespace HeadFinder

-- The head of a node of a tree, under the node above it there.
def headIn (hf : HeadFinder) (t : Tree) (above : Option Parent) (n : Node) :
    Except HeadError Path :=
  hf.head n.tree (t.parentAt above n.path)

-- The nodes of a tree that are not leaves, each of them once, with the heads that the finder gives.
structure IsHeadMap (hf : HeadFinder) (t : Tree) (above : Option Parent)
    (heads : List (Node × Path)) : Prop where
  nodup : (heads.map (·.1)).Nodup
  keys : ∀ n, n ∈ heads.map (·.1) ↔ n ∈ t.nodes ∧ n.tree.isLeaf = false
  heads : ∀ entry ∈ heads, hf.headIn t above entry.1 = .ok entry.2

-- The finder fails for the node, and for none that the walk comes to before it.
structure FailsFirst (hf : HeadFinder) (t : Tree) (above : Option Parent) (n : Node)
    (e : HeadError) : Prop where
  mem : n ∈ t.nodes
  inner : n.tree.isLeaf = false
  error : hf.headIn t above n = .error e
  before : ∀ m ∈ t.nodes, m.tree.isLeaf = false → MetBefore m.path n.path →
    ∃ way, hf.headIn t above m = .ok way

end HeadFinder

section MetBefore

variable {path other : Path}

theorem MetBefore.asymm (h : MetBefore path other) : ¬MetBefore other path :=
  List.lex_asymm (fun hlt => Nat.lt_asymm hlt) h

theorem metBefore_below (path : Path) (i : Nat) (way : Path) :
    MetBefore path (path ++ [i] ++ way) := by
  have hlex : List.Lex (· > ·) [] (i :: way) := List.Lex.nil
  simpa [MetBefore] using hlex.append_left (· > ·) path

theorem metBefore_right (path : Path) {i j : Nat} (h : i < j) (way way' : Path) :
    MetBefore (path ++ [j] ++ way) (path ++ [i] ++ way') := by
  have hlex : List.Lex (· > ·) (j :: way) (i :: way') := List.Lex.rel h
  simpa [MetBefore] using hlex.append_left (· > ·) path

mutual

-- The walk comes to the nodes in this order.
theorem Tree.pairwise_headedAt (path : Path) (above : Option Parent) (t : Tree) :
    (t.headedAt path above).Pairwise fun p q => MetBefore p.node.path q.node.path := by
  cases t with
  | leaf word => exact List.Pairwise.nil
  | node label ts =>
      rw [Tree.headedAt, List.pairwise_cons]
      refine ⟨fun q hq => ?_, pairwise_headedEach path (.node label ts) 0 ts⟩
      obtain ⟨j, s, -, hq⟩ := mem_headedEach.mp hq
      obtain ⟨way, hpath, -⟩ := Tree.mem_headedAt.mp hq
      rw [hpath]
      exact metBefore_below path (0 + j) way

theorem pairwise_headedEach (path : Path) (parent : Tree) (i : Nat) (ts : List Tree) :
    (headedEach path parent i ts).Pairwise fun p q => MetBefore p.node.path q.node.path := by
  cases ts with
  | nil => exact List.Pairwise.nil
  | cons t ts =>
      rw [headedEach, List.pairwise_append]
      refine ⟨pairwise_headedEach path parent (i + 1) ts,
        Tree.pairwise_headedAt (path ++ [i]) _ t, fun p hp q hq => ?_⟩
      obtain ⟨j, s, -, hp⟩ := mem_headedEach.mp hp
      obtain ⟨way, hpath, -⟩ := Tree.mem_headedAt.mp hp
      obtain ⟨way', hpath', -⟩ := Tree.mem_headedAt.mp hq
      rw [hpath, hpath']
      exact metBefore_right path (by omega) way way'

end

end MetBefore

namespace HeadFinder

variable {hf : HeadFinder} {t : Tree} {above : Option Parent}

theorem mem_headedAt_root {p : Placed} :
    p ∈ t.headedAt [] above ↔
      p.node ∈ t.nodes ∧ p.node.tree.isLeaf = false ∧ p.parent = t.parentAt above p.node.path := by
  rw [Tree.mem_headedAt, Tree.nodes, Tree.mem_nodesAt]
  constructor
  · rintro ⟨way, hpath, hget, hinner, hparent⟩
    rw [List.nil_append] at hpath
    exact ⟨⟨way, hpath, hget⟩, hinner, hpath ▸ hparent⟩
  · rintro ⟨⟨way, hpath, hget⟩, hinner, hparent⟩
    rw [List.nil_append] at hpath
    exact ⟨way, hpath, hget, hinner, hpath ▸ hparent⟩

theorem placed_mem_headedAt (above : Option Parent) {n : Node} (hn : n ∈ t.nodes)
    (hinner : n.tree.isLeaf = false) :
    (⟨n, t.parentAt above n.path⟩ : Placed) ∈ t.headedAt [] above :=
  mem_headedAt_root.mpr ⟨hn, hinner, rfl⟩

-- The entry of a node has its head, under the node above it.
theorem headEntry_eq {p : Placed} (hp : p ∈ t.headedAt [] above) :
    hf.headEntry p = (hf.headIn t above p.node).map fun way => (p.node, way) := by
  obtain ⟨-, -, hparent⟩ := mem_headedAt_root.mp hp
  rw [headEntry, headIn, ← hparent]
  cases hf.head p.node.tree p.parent <;> rfl

theorem exists_headEntry_eq_ok_iff {p : Placed} (hp : p ∈ t.headedAt [] above) :
    (∃ entry, hf.headEntry p = .ok entry) ↔ ∃ way, hf.headIn t above p.node = .ok way := by
  simp only [headEntry_eq hp, map_eq_ok]
  constructor
  · rintro ⟨entry, way, hway, -⟩
    exact ⟨way, hway⟩
  · rintro ⟨way, hway⟩
    exact ⟨(p.node, way), way, hway, rfl⟩

theorem nodup_headedNodes (t : Tree) (above : Option Parent) : (headedNodes t above).Nodup := by
  have hnodes : t.nodes.Nodup := (Node.root t).nodup_map_path_below.of_map
  exact (Tree.map_node_headedAt_perm [] above t).nodup_iff.mpr (hnodes.filter _)

theorem isHeadMap_of_headMap {heads : List (Node × Path)} (h : hf.headMap t above = .ok heads) :
    hf.IsHeadMap t above heads := by
  rw [headMap_eq_mapM] at h
  have hways : ∀ p ∈ t.headedAt [] above,
      hf.headIn t above p.node = .ok (hf.headWay t above p.node) := by
    intro p hp
    obtain ⟨way, hway⟩ := (exists_headEntry_eq_ok_iff hp).mp (exists_eq_ok_of_mapM h hp)
    rw [hway]
    rw [headIn] at hway
    rw [headWay, hway]
  have hentries : ∀ p ∈ t.headedAt [] above,
      hf.headEntry p = .ok (p.node, hf.headWay t above p.node) := by
    intro p hp
    rw [headEntry_eq hp, hways p hp]
    rfl
  obtain rfl := Except.ok.inj (h.symm.trans (mapM_eq_ok_map hentries))
  have hkeys : ((t.headedAt [] above).map fun p => (p.node, hf.headWay t above p.node)).map (·.1) =
      headedNodes t above := by
    rw [List.map_map]
    rfl
  exact {
    nodup := hkeys ▸ nodup_headedNodes t above
    keys := fun n => hkeys ▸ mem_headedNodes
    heads := by
      intro entry hentry
      obtain ⟨p, hp, rfl⟩ := List.mem_map.mp hentry
      exact hways p hp }

theorem IsHeadMap.exists_mem {heads : List (Node × Path)} (hmap : hf.IsHeadMap t above heads)
    {n : Node} (hn : n ∈ t.nodes) (hinner : n.tree.isLeaf = false) :
    ∃ way, (n, way) ∈ heads ∧ hf.headIn t above n = .ok way := by
  obtain ⟨⟨m, way⟩, hentry, heq⟩ := List.mem_map.mp ((hmap.keys n).mpr ⟨hn, hinner⟩)
  obtain rfl : m = n := heq
  exact ⟨way, hentry, hmap.heads _ hentry⟩

theorem exists_headMap_eq_ok_iff :
    (∃ heads, hf.headMap t above = .ok heads) ↔
      ∀ n ∈ t.nodes, n.tree.isLeaf = false → ∃ way, hf.headIn t above n = .ok way := by
  constructor
  · rintro ⟨heads, h⟩ n hn hinner
    obtain ⟨way, -, hway⟩ := (isHeadMap_of_headMap h).exists_mem hn hinner
    exact ⟨way, hway⟩
  · intro h
    rw [headMap_eq_mapM]
    apply exists_mapM_eq_ok
    intro p hp
    obtain ⟨hn, hinner, -⟩ := mem_headedAt_root.mp hp
    exact (exists_headEntry_eq_ok_iff hp).mpr (h p.node hn hinner)

-- Where the walk comes to a node, it has come to all that stand before it in its order.
theorem mem_before_iff {before after : List Placed} {p q : Placed}
    (hsplit : t.headedAt [] above = before ++ p :: after) (hq : q ∈ t.headedAt [] above) :
    q ∈ before ↔ MetBefore q.node.path p.node.path := by
  have horder := Tree.pairwise_headedAt [] above t
  rw [hsplit, List.pairwise_append, List.pairwise_cons] at horder
  obtain ⟨-, ⟨hafter, -⟩, hbefore⟩ := horder
  rw [hsplit, List.mem_append, List.mem_cons] at hq
  constructor
  · exact fun hmem => hbefore q hmem p List.mem_cons_self
  · intro hmet
    rcases hq with hmem | rfl | hmem
    · exact hmem
    · exact absurd hmet hmet.asymm
    · exact absurd hmet (hafter q hmem).asymm

-- The walk stops at the first node for which the finder fails.
theorem headMap_eq_error_iff {e : HeadError} :
    hf.headMap t above = .error e ↔ ∃ n, hf.FailsFirst t above n e := by
  rw [headMap_eq_mapM, mapM_eq_error]
  constructor
  · rintro ⟨before, p, after, hsplit, hbefore, herror⟩
    have hp : p ∈ t.headedAt [] above := by simp [hsplit]
    obtain ⟨hn, hinner, -⟩ := mem_headedAt_root.mp hp
    rw [headEntry_eq hp, map_eq_error] at herror
    refine ⟨p.node, hn, hinner, herror, fun m hm hinner' hmet => ?_⟩
    have hmem := placed_mem_headedAt above hm hinner'
    have hfront := (mem_before_iff hsplit hmem).mpr hmet
    exact (exists_headEntry_eq_ok_iff hmem).mp (hbefore _ hfront)
  · rintro ⟨n, hn, hinner, herror, hfirst⟩
    have hmem := placed_mem_headedAt above hn hinner
    obtain ⟨before, after, hsplit⟩ := List.append_of_mem hmem
    refine ⟨before, _, after, hsplit, fun p hp => ?_, ?_⟩
    · have hp' : p ∈ t.headedAt [] above := by simp [hsplit, hp]
      obtain ⟨hm, hinner', -⟩ := mem_headedAt_root.mp hp'
      have hmet := (mem_before_iff hsplit hp').mp hp
      exact (exists_headEntry_eq_ok_iff hp').mpr (hfirst p.node hm hinner' hmet)
    · rw [headEntry_eq hmem, map_eq_error]
      exact herror

-- A map of heads has what the finder says of each node that is not a leaf, and there is one if the
-- finder fails for none of them. Otherwise the error is the one of the first node that it fails
-- for, each node before those below it and children from right to left.
theorem headMap_heads_or_first_error (hf : HeadFinder) (t : Tree) (above : Option Parent) :
    (∀ heads, hf.headMap t above = .ok heads → hf.IsHeadMap t above heads) ∧
      ((∃ heads, hf.headMap t above = .ok heads) ↔
        ∀ n ∈ t.nodes, n.tree.isLeaf = false → ∃ way, hf.headIn t above n = .ok way) ∧
        ∀ e, hf.headMap t above = .error e ↔ ∃ n, hf.FailsFirst t above n e :=
  ⟨fun _ h => isHeadMap_of_headMap h, exists_headMap_eq_ok_iff, fun _ => headMap_eq_error_iff⟩

end HeadFinder

end HeadPercolation
