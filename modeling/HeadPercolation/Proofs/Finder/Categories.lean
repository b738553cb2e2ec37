import HeadPercolation.Finder.Collins
import HeadPercolation.Proofs.Finder.Plain

namespace HeadPercolation

namespace Tree

-- Trees of the same shape whose labels have the same basic categories. The words may be any.
inductive SameCategories : Tree → Tree → Prop
  | leaf (word word' : String) : SameCategories (leaf word) (leaf word')
  | node {label label' : String} {ts ts' : List Tree}
      (hlabel : HeadPercolation.basicCategory label = HeadPercolation.basicCategory label')
      (hkids : List.Forall₂ SameCategories ts ts') :
      SameCategories (node label ts) (node label' ts')

-- Is each leaf the only child of its parent?
def LeavesAlone (t : Tree) : Prop :=
  ∀ n ∈ t.nodes, ∀ kid ∈ n.tree.children, kid.isLeaf = true → n.tree.children.length = 1

instance (t : Tree) : Decidable t.LeavesAlone :=
  inferInstanceAs (Decidable (∀ n ∈ t.nodes, ∀ kid ∈ n.tree.children, kid.isLeaf = true →
    n.tree.children.length = 1))

variable {t t' s : Tree}

theorem LeavesAlone.of_get? (h : t.LeavesAlone) {path : Path} (hs : t.get? path = some s) :
    s.LeavesAlone := by
  intro n hn
  obtain ⟨way, -, hway⟩ := mem_nodesAt.mp hn
  have hmem : ⟨path ++ way, n.tree⟩ ∈ t.nodes := by
    refine mem_nodesAt.mpr ⟨path ++ way, rfl, ?_⟩
    rw [get?_append, hs]
    exact hway
  exact h ⟨path ++ way, n.tree⟩ hmem

-- Where there is a choice there is no leaf to choose.
theorem LeavesAlone.isLeaf_eq_false (h : t.LeavesAlone) (hchoice : 2 ≤ t.children.length) :
    ∀ kid ∈ t.children, kid.isLeaf = false := by
  have hroot : ⟨[], t⟩ ∈ t.nodes := mem_nodesAt.mpr ⟨[], rfl, rfl⟩
  intro kid hkid
  by_contra hleaf
  have honly := h _ hroot kid hkid (by simpa using hleaf)
  simp [honly] at hchoice

theorem SameCategories.children (h : t.SameCategories t') :
    List.Forall₂ SameCategories t.children t'.children := by
  cases h with
  | leaf word word' => exact .nil
  | node hlabel hkids => exact hkids

theorem SameCategories.basicCategory_eq (h : t.SameCategories t') (hinner : t.isLeaf = false) :
    t.basicCategory = t'.basicCategory := by
  cases h with
  | leaf word word' => cases hinner
  | node hlabel hkids => exact hlabel

-- The way down to a node leads to the corresponding node.
theorem SameCategories.exists_get? (h : t.SameCategories t') {path : Path}
    (hs : t.get? path = some s) : ∃ s', t'.get? path = some s' ∧ s.SameCategories s' := by
  induction path generalizing t t' with
  | nil =>
      cases hs
      exact ⟨t', rfl, h⟩
  | cons i path ih =>
      obtain ⟨c, hc, hs⟩ := get?_cons_eq_some.mp hs
      obtain ⟨hi, rfl⟩ := List.getElem?_eq_some_iff.mp hc
      have hi' : i < t'.children.length := h.children.length_eq ▸ hi
      obtain ⟨s', hs', hsame⟩ := ih (h.children.get hi hi') hs
      exact ⟨s', get?_cons_eq_some.mpr ⟨_, List.getElem?_eq_getElem hi', hs'⟩, hsame⟩

theorem map_basicCategory_eq {ts ts' : List Tree} (h : List.Forall₂ SameCategories ts ts')
    (hinner : ∀ kid ∈ ts, kid.isLeaf = false) :
    ts.map basicCategory = ts'.map basicCategory := by
  induction h with
  | nil => rfl
  | cons hkid hkids ih =>
      obtain ⟨hfirst, hothers⟩ := List.forall_mem_cons.mp hinner
      rw [List.map_cons, List.map_cons, hkid.basicCategory_eq hfirst, ih hothers]

end Tree

theorem Directive.choose?_congr {ts ts' : List Tree}
    (h : ts.map Tree.basicCategory = ts'.map Tree.basicCategory) (d : Directive) :
    d.choose? ts = d.choose? ts' := by
  have hsearch (p : String → Bool) (edge : Edge) :
      edge.search (fun kid => p kid.basicCategory) ts =
        edge.search (fun kid => p kid.basicCategory) ts' := by
    apply Edge.search_congr
    simpa [Function.comp_def] using congrArg (List.map p) h
  obtain ⟨⟨edge, selection⟩, categories⟩ := d
  cases selection with
  | ranked =>
      have hranked (category : String) := hsearch (· == category) edge
      simp only [choose?, hranked]
  | listed => exact hsearch categories.contains edge
  | unlisted => exact hsearch (!categories.contains ·) edge

namespace HeadFinder

variable {hf : HeadFinder} {t t' : Tree} {ts ts' : List Tree}

theorem IsPlain.locateLast_congr (hplain : hf.IsPlain)
    (h : ts.map Tree.basicCategory = ts'.map Tree.basicCategory) (d : Directive) :
    hf.locateLast ts d = hf.locateLast ts' d := by
  have hlength : ts.length = ts'.length := by simpa using congrArg List.length h
  have hedge : d.direction.edge.outermost? ts = d.direction.edge.outermost? ts' := by
    apply Edge.search_congr
    simp [hlength]
  rw [hplain.locateLast_eq, hplain.locateLast_eq, hedge, Directive.choose?_congr h,
    Directive.choose?_congr h]

theorem IsPlain.locateFirst_congr (hplain : hf.IsPlain)
    (h : ts.map Tree.basicCategory = ts'.map Tree.basicCategory) (ds : List Directive) :
    hf.locateFirst ts ds = hf.locateFirst ts' ds := by
  induction ds with
  | nil => rfl
  | cons d ds ih =>
      cases ds with
      | nil => exact hplain.locateLast_congr h d
      | cons e es =>
          rw [hplain.locateFirst_eq, hplain.locateFirst_eq, Directive.choose?_congr h, ih]

-- An error for want of a rule names the tree, so errors are not compared.
theorem IsPlain.tableHead_congr (hplain : hf.IsPlain) (hlabel : t.basicCategory = t'.basicCategory)
    (hkids : t.children.map Tree.basicCategory = t'.children.map Tree.basicCategory) :
    (hf.tableHead t).toOption = (hf.tableHead t').toOption := by
  have hcategory : ruleCategory t = ruleCategory t' := by rw [ruleCategory, hlabel, ruleCategory]
  simp only [tableHead, hcategory]
  cases hf.rules.get? (ruleCategory t') with
  | some ds => exact congrArg Except.toOption (hplain.locateFirst_congr hkids ds)
  | none =>
      cases hf.defaultRule with
      | some d => exact congrArg Except.toOption (hplain.locateLast_congr hkids d)
      | none => rfl

theorem IsPlain.headIndex_congr (hplain : hf.IsPlain) (h : t.SameCategories t')
    (halone : t.LeavesAlone) (parent parent' : Option Parent) :
    (hf.headIndex t parent).toOption = (hf.headIndex t' parent').toOption := by
  have hlength : t.children.length = t'.children.length := h.children.length_eq
  rcases Nat.lt_trichotomy t.children.length 1 with hnone | honly | hchoice
  · have hzero : t.children.length = 0 := by omega
    rw [headIndex_of_length_eq_zero _ hzero, headIndex_of_length_eq_zero _ (hlength ▸ hzero)]
  · rw [hplain.headIndex_of_length_eq_one honly,
      hplain.headIndex_of_length_eq_one (hlength ▸ honly)]
  · have hinner := Tree.isLeaf_of_length_pos (Nat.lt_trans Nat.one_pos hchoice)
    rw [hplain.headIndex_of_two_le_length hchoice,
      hplain.headIndex_of_two_le_length (hlength ▸ hchoice)]
    exact hplain.tableHead_congr (h.basicCategory_eq hinner)
      (Tree.map_basicCategory_eq h.children (halone.isLeaf_eq_false hchoice))

-- The head of a node is told by the shape of the tree and the basic categories of its labels. The
-- annotations and the words tell nothing.
theorem headIndex_categories {tables : Config.Tables}
    {replacements : Table (List Directive.Written)} (hf' : collins tables replacements = .ok hf)
    (h : t.SameCategories t') (halone : t.LeavesAlone) {path : Path} {s : Tree}
    (hs : t.get? path = some s) :
    ∃ s', t'.get? path = some s' ∧ ∀ parent parent',
      (∃ k, hf.headIndex s parent = .ok k ∧ hf.headIndex s' parent' = .ok k) ∨
        ((∃ e, hf.headIndex s parent = .error e) ∧ ∃ e, hf.headIndex s' parent' = .error e) := by
  obtain ⟨s', hs', hsame⟩ := h.exists_get? hs
  refine ⟨s', hs', fun parent parent' => ?_⟩
  have hcongr := (isPlain_of_ofRules hf').headIndex_congr hsame (halone.of_get? hs) parent parent'
  cases hhead : hf.headIndex s parent with
  | ok k =>
      rw [hhead] at hcongr
      exact .inl ⟨k, rfl, toOption_eq_some.mp hcongr.symm⟩
  | error e =>
      rw [hhead] at hcongr
      cases hhead' : hf.headIndex s' parent' with
      | ok k =>
          rw [hhead'] at hcongr
          cases hcongr
      | error e' => exact .inr ⟨⟨e, rfl⟩, e', rfl⟩

-- The subject is headed by its noun, whatever the noun is and whether it is marked as the subject.
theorem headIndex_categories_subject :
    let tables : Config.Tables :=
      { Config.Tables.empty with headRules := .ofList [("NP", [.right ["NN"]])] }
    let hf : HeadFinder := { rules := .ofList [("NP", [.right ["NN"]])] }
    let t : Tree := .node "NP-SBJ" [.node "DT" [.leaf "the"], .node "NN" [.leaf "cat"]]
    let t' : Tree := .node "NP" [.node "DT-1" [.leaf "a"], .node "NN" [.leaf "dog"]]
    collins tables .empty = .ok hf ∧ t.SameCategories t' ∧ t.LeavesAlone ∧
      ∀ parent, hf.headIndex t' parent = .ok 1 := by
  intro tables hf t t'
  have hcollins : collins tables .empty = .ok hf := rfl
  have hsame : t.SameCategories t' :=
    .node (by decide +kernel) (.cons (.node (by decide +kernel) (.cons (.leaf _ _) .nil))
      (.cons (.node rfl (.cons (.leaf _ _) .nil)) .nil))
  have halone : t.LeavesAlone := by decide +kernel
  have hhead : (hf.headIndex t none).toOption = some 1 := by decide +kernel
  have hroot : t.get? [] = some t := rfl
  obtain ⟨_, ⟨⟩, hindex⟩ := headIndex_categories hcollins hsame halone hroot
  refine ⟨hcollins, hsame, halone, fun parent => ?_⟩
  rcases hindex none parent with ⟨k, hk, hk'⟩ | ⟨⟨e, he⟩, -⟩
  · rw [hk] at hhead
    cases hhead
    exact hk'
  · rw [he] at hhead
    cases hhead

end HeadFinder

end HeadPercolation
