import HeadPercolation.Proofs.Finder.Percolation

namespace HeadPercolation

open scoped List

def Governs (deps : List Dependency) (governor dependent : Nat) : Prop :=
  ⟨governor, dependent⟩ ∈ deps

-- Do the dependencies make a projective tree of so many words?
structure IsProjectiveTree (count root : Nat) (deps : List Dependency) : Prop where
  root_lt : root < count
  nodup : deps.Nodup
  length_eq : deps.length = count - 1
  lt : ∀ d ∈ deps, d.governor < count ∧ d.dependent < count
  root_free : ∀ governor, ¬Governs deps governor root
  governed : ∀ word < count, word ≠ root → ∃! governor, Governs deps governor word
  reached : ∀ word < count, Relation.ReflTransGen (Governs deps) root word
  acyclic : ∀ word, ¬Relation.TransGen (Governs deps) word word
  -- What stands between two words depends on the governor, by however many steps.
  projective : ∀ d ∈ deps, ∀ word, min d.governor d.dependent ≤ word →
    word ≤ max d.governor d.dependent → Relation.ReflTransGen (Governs deps) d.governor word

-- A cycle would go back to the root, since there is only one way back.
theorem not_transGen_self {α : Type} {r : α → α → Prop} {root : α}
    (hroot : ∀ a, ¬r a root) (hunique : ∀ a b c, r a c → r b c → a = b) {a : α}
    (h : Relation.ReflTransGen r root a) : ¬Relation.TransGen r a a := by
  induction h with
  | refl =>
      intro hcycle
      obtain ⟨b, -, hb⟩ := Relation.TransGen.tail'_iff.mp hcycle
      exact hroot b hb
  | @tail b c _ hbc ih =>
      intro hcycle
      obtain ⟨b', hback, hb'⟩ := Relation.TransGen.tail'_iff.mp hcycle
      obtain rfl := hunique b b' c hbc hb'
      exact ih (.head' hbc hback)

theorem eraseDups_eq_self {α : Type} [DecidableEq α] {xs : List α} (h : xs.Nodup) :
    xs.eraseDups = xs := by
  induction xs with
  | nil => rfl
  | cons x xs ih =>
      obtain ⟨hx, hxs⟩ := List.nodup_cons.mp h
      have hfilter : xs.filter (fun y => !y == x) = xs := by
        rw [List.filter_eq_self]
        intro y hy
        have hne : y ≠ x := fun he => hx (he ▸ hy)
        simpa using hne
      rw [List.eraseDups_cons, hfilter, ih hxs]

-- In a list without repetition what stands between two elements of a part is in that part.
theorem mem_of_between {α : Type} [BEq α] [LawfulBEq α] {xs part : List α} (hnodup : xs.Nodup)
    (hpart : part <:+: xs) {a b c : α} (ha : a ∈ part) (hb : b ∈ part) (hc : c ∈ xs)
    (hac : xs.idxOf a ≤ xs.idxOf c) (hcb : xs.idxOf c ≤ xs.idxOf b) : c ∈ part := by
  obtain ⟨before, after, rfl⟩ := hpart
  have hplace {x : α} (hx : x ∈ part) : ∃ i < part.length,
      (before ++ part ++ after).idxOf x = before.length + i := by
    obtain ⟨i, hi, rfl⟩ := List.getElem_of_mem hx
    refine ⟨i, hi, ?_⟩
    have hget : (before ++ part ++ after)[before.length + i]? = some part[i] := by
      rw [List.append_assoc, List.getElem?_append_right (by omega), Nat.add_sub_cancel_left,
        List.getElem?_append_left hi, List.getElem?_eq_getElem hi]
    obtain ⟨hlt, hsome⟩ := List.getElem?_eq_some_iff.mp hget
    rw [← hsome]
    exact hnodup.idxOf_getElem _ hlt
  obtain ⟨i, hi, hia⟩ := hplace ha
  obtain ⟨j, hj, hjb⟩ := hplace hb
  have hk : (before ++ part ++ after).idxOf c - before.length < part.length := by omega
  have hfront : (before ++ part ++ after).idxOf c < (before ++ part).length := by
    rw [List.length_append]
    omega
  have hget := List.getElem_idxOf (List.idxOf_lt_length_of_mem hc)
  rw [List.getElem_append_left hfront, List.getElem_append_right (by omega)] at hget
  rw [← hget]
  exact List.getElem_mem hk

-- The number of the word at a place.
def Tree.wordNumber (t : Tree) (path : Path) : Nat :=
  t.leaves.findIdx (·.path == path)

-- The dependency between the words at two places.
def Tree.dependency (t : Tree) (arc : Path × Path) : Dependency :=
  ⟨t.wordNumber arc.1, t.wordNumber arc.2⟩

namespace Tree

variable {t : Tree}

theorem wordNumber_eq_idxOf (t : Tree) (path : Path) :
    t.wordNumber path = (Node.root t).wordPaths.idxOf path := by
  rw [wordNumber, Node.wordPaths, List.idxOf, List.findIdx_map]
  rfl

theorem length_wordPaths (t : Tree) : (Node.root t).wordPaths.length = t.leaves.length :=
  List.length_map _

theorem wordNumber_lt {path : Path} (h : path ∈ (Node.root t).wordPaths) :
    t.wordNumber path < t.leaves.length := by
  rw [wordNumber_eq_idxOf, ← length_wordPaths]
  exact List.idxOf_lt_length_of_mem h

-- The words are numbered from zero on.
theorem map_wordNumber_wordPaths (t : Tree) :
    (Node.root t).wordPaths.map t.wordNumber = List.range t.leaves.length := by
  apply List.ext_getElem
  · rw [List.length_map, length_wordPaths, List.length_range]
  · intro i hi hi'
    rw [List.getElem_map, wordNumber_eq_idxOf, (Node.root t).nodup_wordPaths.idxOf_getElem,
      List.getElem_range]

theorem getElem?_wordNumber {leaf : Node} (h : leaf ∈ t.leaves) :
    t.leaves[t.wordNumber leaf.path]? = some leaf := by
  obtain ⟨i, hi, rfl⟩ := List.getElem_of_mem h
  have hpaths : i < (Node.root t).wordPaths.length := by rwa [length_wordPaths]
  have hget : (Node.root t).wordPaths[i] = t.leaves[i].path := List.getElem_map _
  rw [wordNumber_eq_idxOf, ← hget, (Node.root t).nodup_wordPaths.idxOf_getElem i hpaths,
    List.getElem?_eq_getElem hi]

theorem exists_wordNumber_eq {word : Nat} (h : word < t.leaves.length) :
    ∃ leaf ∈ t.leaves, t.wordNumber leaf.path = word := by
  rw [← List.mem_range, ← map_wordNumber_wordPaths, Node.wordPaths, List.map_map] at h
  exact List.mem_map.mp h

end Tree

section Arcs

variable {heads : Path → Option Path} {n : Node}

-- Both words of an arc stand under the node whose word governs.
theorem Headed.exists_of_mem_arcsBelow (h : Headed heads n) {arc : Path × Path}
    (ha : arc ∈ arcsBelow heads n) :
    ∃ m ∈ n.below, arc.1 = headWord heads m ∧ arc.1 ∈ m.wordPaths ∧ arc.2 ∈ m.wordPaths := by
  obtain ⟨m, hm, ham⟩ := List.mem_flatMap.mp ha
  obtain ⟨c, hc, rfl⟩ := List.mem_map.mp ham
  have hchild := List.mem_of_mem_filter hc
  have hheaded := h.of_mem_below hm
  have hpart := Node.wordPaths_infix_of_mem_below (Node.mem_below_of_mem_children hchild)
  have hdependent := (hheaded.of_mem_children hchild).headWord_mem
  exact ⟨m, hm, rfl, hheaded.headWord_mem, hpart.subset hdependent⟩

-- All words from one word of an arc to the other are reached from the governor.
theorem Headed.reaches_between (h : Headed heads n) {arc : Path × Path}
    (ha : arc ∈ arcsBelow heads n) {leaf : Node} (hleaf : leaf ∈ n.leaves) :
    let number := n.wordPaths.idxOf
    min (number arc.1) (number arc.2) ≤ number leaf.path →
      number leaf.path ≤ max (number arc.1) (number arc.2) →
        Relation.ReflTransGen (fun g d => (g, d) ∈ arcsBelow heads n) arc.1 leaf.path := by
  intro number hmin hmax
  obtain ⟨m, hm, hgovernor, hmem, hmem'⟩ := h.exists_of_mem_arcsBelow ha
  have hnodup := n.nodup_wordPaths
  have hpart := Node.wordPaths_infix_of_mem_below hm
  have hpath : leaf.path ∈ n.wordPaths := List.mem_map_of_mem hleaf
  have hinside : leaf.path ∈ m.wordPaths := by
    by_cases hle : number arc.1 ≤ number arc.2
    · rw [Nat.min_eq_left hle] at hmin
      rw [Nat.max_eq_right hle] at hmax
      exact mem_of_between hnodup hpart hmem hmem' hpath hmin hmax
    · have hge : number arc.2 ≤ number arc.1 := by omega
      rw [Nat.min_eq_right hge] at hmin
      rw [Nat.max_eq_left hge] at hmax
      exact mem_of_between hnodup hpart hmem' hmem hpath hmin hmax
  obtain ⟨leaf', hleaf', hsame⟩ := List.mem_map.mp hinside
  have hreaches := (h.of_mem_below hm).reaches hleaf'
  rw [hsame, ← hgovernor] at hreaches
  exact Relation.ReflTransGen.mono (fun g d hgd => arcsBelow_subset hm hgd) _ _ hreaches

end Arcs

section Numbers

variable {heads : Path → Option Path} {t : Tree} {deps : List Dependency}

-- The word of the tree and all dependents are the words, each of them once.
theorem Headed.numbers_perm (h : Headed heads (Node.root t))
    (hdeps : deps ~ (arcsBelow heads (Node.root t)).map t.dependency) :
    t.wordNumber (headWord heads (Node.root t)) :: deps.map (·.dependent) ~
      List.range t.leaves.length := by
  have hwords := h.dependents_perm.map t.wordNumber
  have hdependents := hdeps.map (·.dependent)
  rw [List.map_cons, List.map_map] at hwords
  rw [List.map_map] at hdependents
  exact (hdependents.cons _).trans (hwords.trans (.of_eq t.map_wordNumber_wordPaths))

theorem Headed.lt_of_mem (h : Headed heads (Node.root t))
    (hdeps : deps ~ (arcsBelow heads (Node.root t)).map t.dependency) {d : Dependency}
    (hd : d ∈ deps) : d.governor < t.leaves.length ∧ d.dependent < t.leaves.length := by
  obtain ⟨arc, harc, rfl⟩ := List.mem_map.mp (hdeps.mem_iff.mp hd)
  obtain ⟨m, hm, -, hmem, hmem'⟩ := h.exists_of_mem_arcsBelow harc
  have hsubset := (Node.wordPaths_infix_of_mem_below hm).subset
  exact ⟨Tree.wordNumber_lt (hsubset hmem), Tree.wordNumber_lt (hsubset hmem')⟩

-- Ways along arcs are ways along dependencies.
theorem reflTransGen_governs
    (hdeps : deps ~ (arcsBelow heads (Node.root t)).map t.dependency) {g d : Path}
    (h : Relation.ReflTransGen (fun g d => (g, d) ∈ arcsBelow heads (Node.root t)) g d) :
    Relation.ReflTransGen (Governs deps) (t.wordNumber g) (t.wordNumber d) := by
  apply h.lift t.wordNumber
  intro g d hgd
  exact hdeps.mem_iff.mpr (List.mem_map.mpr ⟨(g, d), hgd, rfl⟩)

-- The arcs of a tree with heads, by the numbers of their words, make a projective tree.
theorem Headed.isProjectiveTree (h : Headed heads (Node.root t))
    (hdeps : deps ~ (arcsBelow heads (Node.root t)).map t.dependency) :
    IsProjectiveTree t.leaves.length (t.wordNumber (headWord heads (Node.root t))) deps := by
  have hperm := h.numbers_perm hdeps
  obtain ⟨hroot, hdependents⟩ := List.nodup_cons.mp (hperm.nodup_iff.mpr List.nodup_range)
  have hfree : ∀ governor, ¬Governs deps governor (t.wordNumber (headWord heads (Node.root t))) :=
    fun governor hg => hroot (List.mem_map.mpr ⟨_, hg, rfl⟩)
  have hunique : ∀ g g' d, Governs deps g d → Governs deps g' d → g = g' := by
    intro g g' d hg hg'
    have hsame := List.inj_on_of_nodup_map hdependents hg hg' rfl
    exact congrArg Dependency.governor hsame
  have hreached : ∀ word < t.leaves.length, Relation.ReflTransGen (Governs deps)
      (t.wordNumber (headWord heads (Node.root t))) word := by
    intro word hw
    obtain ⟨leaf, hleaf, rfl⟩ := Tree.exists_wordNumber_eq hw
    exact reflTransGen_governs hdeps (h.reaches hleaf)
  exact {
    root_lt := Tree.wordNumber_lt h.headWord_mem
    nodup := hdependents.of_map _
    length_eq := by
      have hlength := hperm.length_eq
      simp only [List.length_cons, List.length_map, List.length_range] at hlength
      omega
    lt := fun d hd => h.lt_of_mem hdeps hd
    root_free := hfree
    governed := by
      intro word hw hne
      have hmem := hperm.mem_iff.mpr (List.mem_range.mpr hw)
      obtain ⟨d, hd, rfl⟩ := List.mem_map.mp (List.mem_of_ne_of_mem hne hmem)
      exact ⟨d.governor, hd, fun g hg => hunique g d.governor d.dependent hg hd⟩
    reached := hreached
    acyclic := by
      intro word hcycle
      obtain ⟨b, -, hb⟩ := Relation.TransGen.tail'_iff.mp hcycle
      exact not_transGen_self hfree hunique (hreached word (h.lt_of_mem hdeps hb).2) hcycle
    projective := by
      intro d hd word hmin hmax
      obtain ⟨hgovernor, hdependent⟩ := h.lt_of_mem hdeps hd
      have hw : word < t.leaves.length := by omega
      obtain ⟨arc, harc, rfl⟩ := List.mem_map.mp (hdeps.mem_iff.mp hd)
      obtain ⟨leaf, hleaf, rfl⟩ := Tree.exists_wordNumber_eq hw
      simp only [Tree.dependency, Tree.wordNumber_eq_idxOf] at hmin hmax
      exact reflTransGen_governs hdeps (h.reaches_between harc hleaf hmin hmax) }

theorem arcsBelow_perm_headedNodes (heads : Path → Option Path) (t : Tree) :
    arcsBelow heads (Node.root t) ~ (HeadFinder.headedNodes t none).flatMap (arcsOf heads) := by
  have hinner : (Node.root t).below.flatMap (arcsOf heads) =
      ((Node.root t).below.filter (!·.tree.isLeaf)).flatMap (arcsOf heads) := by
    induction (Node.root t).below with
    | nil => rfl
    | cons n ns ih =>
        cases hleaf : n.tree.isLeaf with
        | true =>
            rw [List.filter_cons_of_neg (by simp [hleaf]), List.flatMap_cons,
              arcsOf_of_isLeaf hleaf, ih]
            rfl
        | false =>
            rw [List.filter_cons_of_pos (by simp [hleaf]), List.flatMap_cons, ih,
              List.flatMap_cons]
  rw [arcsBelow, hinner]
  exact (List.Perm.flatMap_right _ (Tree.map_node_headedAt_perm [] none t)).symm

end Numbers

namespace HeadFinder

variable {hf : HeadFinder} {t : Tree}

-- The dependencies are the arcs, in the order of the map of heads.
theorem FindsChildren.dependencies_eq_ok (h : hf.FindsChildren t none) :
    hf.dependencies t = .ok (((headedNodes t none).flatMap fun n =>
      (arcsOf (hf.headsOf t none) n).map t.dependency).eraseDups) := by
  rw [dependencies, bind_of_eq_ok h.headMap_eq_ok]
  refine (bind_of_eq_ok (mapM_eq_ok_map
    (g := fun e => (arcsOf (hf.headsOf t none) e.1).map t.dependency) ?_)).trans ?_
  · intro e he
    obtain ⟨n, hn, rfl⟩ := List.mem_map.mp he
    obtain ⟨hbelow, hinner⟩ := mem_headedNodes.mp hn
    obtain ⟨i, hi, hway, -⟩ := h.head_eq_ok hbelow hinner
    have hheaded := h.headed.of_mem_below hbelow
    have hheads : hf.headsOf t none n.path = some [i] := by rw [headsOf_path hn, hway]
    have hget : n.tree.get? [i] = some n.tree.children[i] := by
      rw [Tree.get?_singleton, List.getElem?_eq_getElem hi]
    have hc := Node.getElem?_children_of_lt hi
    have hgovernor : lexicalHead (hf.headsOf t none) ⟨n.path ++ [i], n.tree.children[i]⟩ =
        .ok (headWord (hf.headsOf t none) n) := by
      rw [← lexicalHead_of_head hinner hheads hc, hheaded.lexicalHead_eq]
    have hothers : n.children.filter (·.path != n.path ++ [i]) =
        sisters (hf.headsOf t none) n := by
      rw [sisters, hheads]
      rfl
    simp only [hway, hget]
    refine (bind_of_eq_ok hgovernor).trans ?_
    rw [hothers, arcsOf, List.map_map]
    apply mapM_eq_ok_map
    intro c hc
    have hchild := hheaded.of_mem_children (List.mem_of_mem_filter hc)
    exact bind_of_eq_ok hchild.lexicalHead_eq
  · rw [List.map_map, ← List.flatMap_def]
    rfl

-- A finder that succeeds for all nodes of a tree, with children as heads, makes a projective tree
-- of its words, of which the word of the tree is the root.
theorem dependencies_isProjectiveTree (h : hf.FindsChildren t none) :
    ∃ deps top root, hf.dependencies t = .ok deps ∧ hf.headTerminal t none = .ok top ∧
      t.leaves[root]? = some top ∧ IsProjectiveTree t.leaves.length root deps := by
  have hperm : ((headedNodes t none).flatMap fun n =>
      (arcsOf (hf.headsOf t none) n).map t.dependency) ~
        (arcsBelow (hf.headsOf t none) (Node.root t)).map t.dependency := by
    rw [← List.map_flatMap]
    exact (arcsBelow_perm_headedNodes _ t).symm.map _
  obtain ⟨top, htop, hleaf, hpath⟩ := h.descend_eq_ok (Node.root t).mem_below_self
  have htree := h.headed.isProjectiveTree hperm
  rw [← eraseDups_eq_self htree.nodup, ← hpath] at htree
  exact ⟨_, top, _, h.dependencies_eq_ok, htop, Tree.getElem?_wordNumber hleaf, htree⟩

theorem dependencies_isProjectiveTree_bill :
    let hf : HeadFinder :=
      { rules := .ofList [("S", [.left ["VP"]]), ("VP", [.left ["VBZ", "ADJP"]])] }
    let t : Tree := .node "S" [.node "NP" [.node "NNP" [.leaf "Bill"]],
      .node "VP" [.node "VBZ" [.leaf "is"], .node "ADJP" [.node "JJ" [.leaf "big"]]],
      .node "." [.leaf "."]]
    hf.FindsChildren t none ∧
      ∃ deps top root, hf.dependencies t = .ok deps ∧ hf.headTerminal t none = .ok top ∧
        t.leaves[root]? = some top ∧ IsProjectiveTree t.leaves.length root deps := by
  intro hf t
  have h : hf.FindsChildren t none := by decide +kernel
  exact ⟨h, dependencies_isProjectiveTree h⟩

end HeadFinder

end HeadPercolation
