import HeadPercolation.Proofs.Finder.Choice
import HeadPercolation.Proofs.Finder.HeadMap

namespace HeadPercolation

-- The nodes on the way down from a node to a leaf, each the head of the one before it in a map of
-- heads.
inductive HeadPath (heads : List (Node × Path)) : Node → List Node → Prop
  | leaf {n : Node} (hleaf : n.tree.isLeaf = true) : HeadPath heads n [n]
  | step {n : Node} {way : Path} {s : Tree} {path : List Node} (hinner : n.tree.isLeaf = false)
      (hentry : (n, way) ∈ heads) (hs : n.tree.get? way = some s)
      (hpath : HeadPath heads ⟨n.path ++ way, s⟩ path) : HeadPath heads n (n :: path)

-- How a path of heads ends: with the leaf that it begins at, or with a leaf and the node over it.
-- The nodes before those two are above the preterminals.
inductive EndsIn (n : Node) (path : List Node) (leaf : Node) : Prop
  | here (hn : n = leaf) (hpath : path = [leaf])
  | under (front : List Node) (upper : Node) (hinner : n.tree.isLeaf = false)
      (hpath : path = front ++ [upper, leaf]) (hchild : leaf ∈ upper.children)
      (hfront : ∀ m ∈ front, m.tree.isPreterminal = false ∧ m.tree.isLeaf = false)

-- The answers of a finder for the leaf and the preterminal of a tree are read off a path of heads:
-- the leaf is its last node, and the preterminal is the one over the leaf. If that node has more
-- children, or the leaf is the whole tree, then there is no preterminal.
structure HeadFinder.AnswersBy (hf : HeadFinder) (t : Tree) (above : Option Parent)
    (path : List Node) (leaf : Node) (preterminal : Option Node) : Prop where
  headTerminal : hf.headTerminal t above = .ok leaf
  headPreterminal : hf.headPreterminal t above = .ok preterminal
  last : path.getLast? = some leaf
  upper : ∀ n ∈ preterminal, n ∈ path ∧ n.children = [leaf]
  missing : preterminal = none ↔
    leaf = .root t ∨ ∃ front upper, path = front ++ [upper, leaf] ∧ 1 < upper.children.length

namespace Node

variable {n c : Node}

-- A preterminal has one child, which is a leaf.
theorem isPreterminal_iff :
    n.tree.isPreterminal = true ↔ ∃ c, n.children = [c] ∧ c.tree.isLeaf = true := by
  obtain ⟨path, tree⟩ := n
  match tree with
  | .leaf _ | .node _ [] | .node _ [.leaf _] | .node _ [.node _ _] | .node _ (_ :: _ :: _) =>
      simp [Tree.isPreterminal, children, Tree.children, Tree.isLeaf]

theorem children_eq_singleton_or_lt (h : c ∈ n.children) :
    n.children = [c] ∨ 1 < n.children.length := by
  cases hkids : n.children with
  | nil =>
      rw [hkids] at h
      cases h
  | cons kid kids =>
      cases kids with
      | nil =>
          rw [hkids, List.mem_singleton] at h
          exact Or.inl (by rw [h])
      | cons => exact Or.inr (by simp)

end Node

-- A search that passes over the nodes before the last two.
theorem find?_append_pair {α : Type} {p : α → Bool} {front : List α} {upper leaf : α}
    (hfront : ∀ m ∈ front, p m = false) (hleaf : p leaf = true) :
    (front ++ [upper, leaf]).find? p = some (if p upper then upper else leaf) := by
  have hnone : front.find? p = none := by
    rw [List.find?_eq_none]
    intro m hm
    rw [hfront m hm]
    exact Bool.false_ne_true
  rw [List.find?_append, hnone, Option.none_or]
  cases hupper : p upper <;> simp [hupper, hleaf]

namespace HeadPath

variable {heads : List (Node × Path)} {n : Node} {path : List Node}

-- In a map that has each node once there is one path at most.
theorem unique (hnodup : (heads.map (·.1)).Nodup) (h : HeadPath heads n path) {path' : List Node}
    (h' : HeadPath heads n path') : path' = path := by
  induction h generalizing path' with
  | leaf hleaf =>
      cases h' with
      | leaf => rfl
      | step hinner =>
          rw [hleaf] at hinner
          cases hinner
  | @step n way s path hinner hentry hs hpath ih =>
      cases h' with
      | leaf hleaf =>
          rw [hinner] at hleaf
          cases hleaf
      | @step _ way' s' path' _ hentry' hs' hpath' =>
          have hways : way' = way :=
            (Prod.mk.inj (List.inj_on_of_nodup_map hnodup hentry' hentry rfl)).2
          subst hways
          obtain rfl : s' = s := Option.some.inj (hs'.symm.trans hs)
          rw [ih hpath']

end HeadPath

namespace HeadFinder

variable {hf : HeadFinder} {t : Tree} {above : Option Parent} {heads : List (Node × Path)}

-- If there is a map of heads then the finder succeeds for each node.
theorem ChoosesChildren.findsChildren (hf' : hf.ChoosesChildren)
    (h : hf.headMap t above = .ok heads) : hf.FindsChildren t above := by
  intro way s hget hinner
  have hmem : (⟨way, s⟩ : Node) ∈ t.nodes := Tree.mem_nodesAt.mpr ⟨way, rfl, hget⟩
  obtain ⟨way', hway⟩ := exists_headMap_eq_ok_iff.mp ⟨heads, h⟩ ⟨way, s⟩ hmem hinner
  obtain ⟨i, hi, rfl⟩ := hf'.head_eq_ok hinner hway
  exact ⟨i, hi, hway⟩

section Path

variable {n : Node} {path : List Node}

-- A step along the heads leads to a child, and the finder is asked for that child under its parent.
theorem IsHeadMap.step (hmap : hf.IsHeadMap t above heads) (hfinds : hf.FindsChildren t above)
    {way : Path} {s : Tree} (hentry : (n, way) ∈ heads) (hs : n.tree.get? way = some s) :
    ∃ i, way = [i] ∧ hf.head n.tree (t.parentAt above n.path) = .ok [i] ∧
      n.tree.children[i]? = some s ∧ ⟨n.path ++ [i], s⟩ ∈ n.children ∧
        t.parentAt above (n.path ++ [i]) = some ⟨n.tree, some i⟩ := by
  obtain ⟨hn, hinner⟩ := (hmap.keys n).mp (List.mem_map_of_mem hentry)
  obtain ⟨i, hi, -, hhead⟩ := hfinds.head_eq_ok hn hinner
  obtain rfl : way = [i] := Except.ok.inj ((hmap.heads _ hentry).symm.trans hhead)
  obtain ⟨place, hpath, hget⟩ := (Node.mem_below (n := .root t)).mp hn
  rw [Tree.get?_singleton] at hs
  have hchild : n.children[i]? = some ⟨n.path ++ [i], s⟩ := by
    rw [Node.getElem?_children, hs]
    rfl
  refine ⟨i, rfl, hhead, hs, List.mem_of_getElem? hchild, ?_⟩
  rw [hpath]
  exact Tree.parentAt_append_singleton hget above hi

theorem IsHeadMap.exists_headPath (hmap : hf.IsHeadMap t above heads)
    (hfinds : hf.FindsChildren t above) (hn : n ∈ t.nodes) : ∃ path, HeadPath heads n path := by
  induction n using Node.induction with
  | step n ih =>
      cases hleaf : n.tree.isLeaf with
      | true => exact ⟨[n], .leaf hleaf⟩
      | false =>
          obtain ⟨way, hentry, hway⟩ := hmap.exists_mem hn hleaf
          obtain ⟨i, hi, -, hhead⟩ := hfinds.head_eq_ok hn hleaf
          obtain rfl : way = [i] := Except.ok.inj (hway.symm.trans hhead)
          have hs := (Tree.get?_singleton _ i).trans (List.getElem?_eq_getElem hi)
          have hchild := List.mem_of_getElem? (Node.getElem?_children_of_lt hi)
          have hsubset := Node.below_subset_of_mem_below (n := .root t) hn
          obtain ⟨path, hpath⟩ := ih _ hchild (hsubset (Node.mem_below_of_mem_children hchild))
          exact ⟨_, .step hleaf hentry hs hpath⟩

-- Going down from a node until `stop` says so is going along its path.
theorem IsHeadMap.descend_eq_ok (hmap : hf.IsHeadMap t above heads)
    (hfinds : hf.FindsChildren t above) (hpath : HeadPath heads n path) (stop : Tree → Bool) :
    ∃ m, hf.descend stop n.tree (t.parentAt above n.path) = .ok m ∧
      path.find? (fun k => stop k.tree || k.tree.isLeaf) = some ⟨n.path ++ m.path, m.tree⟩ := by
  have hhere {n : Node} (h : (stop n.tree || n.tree.isLeaf) = true) (rest : List Node) :
      ∃ m, hf.descend stop n.tree (t.parentAt above n.path) = .ok m ∧
        (n :: rest).find? (fun k => stop k.tree || k.tree.isLeaf) =
          some ⟨n.path ++ m.path, m.tree⟩ := by
    refine ⟨.root n.tree, ?_, ?_⟩
    · rw [descend, if_pos h]
    · rw [List.find?_cons_of_pos (by exact h), Node.root, List.append_nil]
  induction hpath with
  | leaf hleaf => exact hhere (by rw [hleaf, Bool.or_true]) []
  | @step n way s path hinner hentry hs hpath ih =>
      cases hstop : stop n.tree with
      | true => exact hhere (by rw [hstop, Bool.true_or]) path
      | false =>
          obtain ⟨i, rfl, hhead, hc, -, hparent⟩ := hmap.step hfinds hentry hs
          obtain ⟨m, hm, hfind⟩ := ih
          rw [hparent] at hm
          refine ⟨⟨i :: m.path, m.tree⟩, ?_, ?_⟩
          · rw [descend_of_head hstop hinner hhead hc, bind_of_eq_ok hm]
            rfl
          · rw [List.find?_cons_of_neg (by simp [hstop, hinner]), hfind, List.append_assoc]
            rfl

theorem IsHeadMap.endsIn (hmap : hf.IsHeadMap t above heads) (hfinds : hf.FindsChildren t above)
    (hpath : HeadPath heads n path) : ∃ leaf, leaf.tree.isLeaf = true ∧ EndsIn n path leaf := by
  induction hpath with
  | @leaf n hleaf => exact ⟨n, hleaf, .here rfl rfl⟩
  | @step n way s path hinner hentry hs hpath ih =>
      obtain ⟨leaf, hleaf, hends⟩ := ih
      obtain ⟨i, rfl, -, -, hchild, -⟩ := hmap.step hfinds hentry hs
      refine ⟨leaf, hleaf, ?_⟩
      cases hends with
      | here hn hpath =>
          subst hn hpath
          exact .under [] n hinner rfl hchild (by simp)
      | under front upper hinner' hpath hchild' hfront =>
          subst hpath
          have hn : n.tree.isPreterminal = false ∧ n.tree.isLeaf = false := by
            refine ⟨?_, hinner⟩
            by_contra hpreterminal
            obtain ⟨c, hc, hcleaf⟩ := Node.isPreterminal_iff.mp (Bool.of_not_eq_false hpreterminal)
            rw [hc, List.mem_singleton] at hchild
            rw [← hchild, hinner'] at hcleaf
            cases hcleaf
          exact .under (n :: front) upper hinner rfl hchild' (List.forall_mem_cons.mpr ⟨hn, hfront⟩)

theorem IsHeadMap.descend_root (hmap : hf.IsHeadMap t above heads)
    (hfinds : hf.FindsChildren t above) (hpath : HeadPath heads (.root t) path) (stop : Tree → Bool)
    (hfind : path.find? (fun k => stop k.tree || k.tree.isLeaf) = some n) :
    hf.descend stop t above = .ok n := by
  obtain ⟨m, hm, hfind'⟩ := hmap.descend_eq_ok hfinds hpath stop
  obtain rfl : m = n := Option.some.inj (hfind'.symm.trans hfind)
  exact hm

-- The nodes before the last two are passed over.
theorem IsHeadMap.descend_under (hmap : hf.IsHeadMap t above heads)
    (hfinds : hf.FindsChildren t above) (hpath : HeadPath heads (.root t) path) {front : List Node}
    {upper leaf : Node} (hends : path = front ++ [upper, leaf]) (hupper : upper.tree.isLeaf = false)
    (hleaf : leaf.tree.isLeaf = true) {stop : Tree → Bool}
    (hfront : ∀ m ∈ front, stop m.tree = false ∧ m.tree.isLeaf = false) :
    hf.descend stop t above = .ok (if stop upper.tree then upper else leaf) := by
  apply hmap.descend_root hfinds hpath
  rw [hends, find?_append_pair (fun m hm => by simp [hfront m hm]) (by simp [hleaf])]
  simp [hupper]

theorem headPreterminal_of_descend (h : hf.descend Tree.isPreterminal t above = .ok n) :
    hf.headPreterminal t above = .ok (if n.tree.isLeaf then none else some n) := by
  rw [headPreterminal, bind_of_eq_ok h]
  rfl

-- A tree that is a leaf is its own head word and has no preterminal.
theorem answersBy_root (hleaf : t.isLeaf = true) :
    hf.AnswersBy t above [.root t] (.root t) none := by
  have hdescend (stop : Tree → Bool) : hf.descend stop t above = .ok (.root t) := by
    rw [descend, hleaf, Bool.or_true]
    rfl
  have hpreterminal := headPreterminal_of_descend (hdescend Tree.isPreterminal)
  rw [Node.root, if_pos hleaf] at hpreterminal
  exact {
    headTerminal := hdescend _
    headPreterminal := hpreterminal
    last := rfl
    upper := by simp
    missing := by simp }

-- The node over the leaf is passed over too if it has more children.
theorem IsHeadMap.exists_answersBy (hmap : hf.IsHeadMap t above heads)
    (hfinds : hf.FindsChildren t above) (hpath : HeadPath heads (.root t) path)
    {leaf : Node} (hleaf : leaf.tree.isLeaf = true) (hends : EndsIn (.root t) path leaf) :
    ∃ preterminal, hf.AnswersBy t above path leaf preterminal := by
  cases hends with
  | here hn hends =>
      subst hn hends
      exact ⟨none, answersBy_root hleaf⟩
  | under front upper hinner hends hchild hfront =>
      have hupper : upper.tree.isLeaf = false := Node.isLeaf_of_mem_children hchild
      have hroot : leaf ≠ .root t := by
        rintro rfl
        rw [hleaf] at hinner
        cases hinner
      have hterminal : hf.headTerminal t above = .ok leaf :=
        hmap.descend_under hfinds hpath hends hupper hleaf fun m hm => ⟨rfl, (hfront m hm).2⟩
      have hpreterminal := headPreterminal_of_descend
        (hmap.descend_under hfinds hpath hends hupper hleaf hfront)
      have hlast : path.getLast? = some leaf := by simp [hends]
      rcases Node.children_eq_singleton_or_lt hchild with hone | hmore
      · have htag : upper.tree.isPreterminal = true :=
          Node.isPreterminal_iff.mpr ⟨leaf, hone, hleaf⟩
        refine ⟨some upper, hterminal, by simpa [htag, hupper] using hpreterminal, hlast, ?_, ?_⟩
        · rintro n ⟨⟩
          exact ⟨by simp [hends], hone⟩
        · simp only [reduceCtorEq, hroot, false_or, false_iff, hends]
          rintro ⟨front', upper', heq, hmore⟩
          obtain ⟨-, hpair⟩ := List.append_inj' heq rfl
          cases hpair
          simp [hone] at hmore
      · have htag : upper.tree.isPreterminal = false := by
          by_contra hnot
          obtain ⟨c, hc, -⟩ := Node.isPreterminal_iff.mp (Bool.of_not_eq_false hnot)
          simp [hc] at hmore
        refine ⟨none, hterminal, by simpa [htag, hleaf] using hpreterminal, hlast, by simp, ?_⟩
        simpa using Or.inr ⟨front, upper, hends, hmore⟩

end Path

-- Following a map of heads from a tree down, asking for its head word and asking for its head
-- preterminal are one way down.
theorem headMap_follows_descents (hf' : hf.ChoosesChildren)
    (h : hf.headMap t above = .ok heads) :
    ∃ path leaf preterminal, (∀ path', HeadPath heads (.root t) path' ↔ path' = path) ∧
      hf.AnswersBy t above path leaf preterminal := by
  have hmap := isHeadMap_of_headMap h
  have hfinds := hf'.findsChildren h
  obtain ⟨path, hpath⟩ := hmap.exists_headPath hfinds (Node.root t).mem_below_self
  obtain ⟨leaf, hleaf, hends⟩ := hmap.endsIn hfinds hpath
  obtain ⟨preterminal, hanswers⟩ := hmap.exists_answersBy hfinds hpath hleaf hends
  exact ⟨path, leaf, preterminal,
    fun path' => ⟨hpath.unique hmap.nodup, fun heq => heq ▸ hpath⟩, hanswers⟩

-- `the dog barks`, by the rules of a table.
theorem headMap_follows_descents_barks :
    let rules : Table (List Directive.Written) :=
      .ofList [("S", [⟨"right", ["VP"]⟩]), ("NP", [⟨"right", ["NN"]⟩])]
    let t : Tree := .node "S" [.node "NP" [.node "DT" [.leaf "the"], .node "NN" [.leaf "dog"]],
      .node "VP" [.node "VBZ" [.leaf "barks"]]]
    ∃ hf heads, ofRules rules [] none = .ok hf ∧ hf.ChoosesChildren ∧
      hf.headMap t none = .ok heads ∧
        ∃ path leaf preterminal, (∀ path', HeadPath heads (.root t) path' ↔ path' = path) ∧
          hf.AnswersBy t none path leaf preterminal := by
  intro rules t
  let hf : HeadFinder := { rules := .ofList [("S", [.right ["VP"]]), ("NP", [.right ["NN"]])] }
  have hrules : ofRules rules [] none = .ok hf := rfl
  have hchooses : hf.ChoosesChildren := choosesChildren_of_ofRules hrules hf.adjust
  have hfinds : hf.FindsChildren t none := by decide +kernel
  have hmap := hfinds.headMap_eq_ok
  exact ⟨hf, _, hrules, hchooses, hmap, headMap_follows_descents hchooses hmap⟩

end HeadFinder

end HeadPercolation
