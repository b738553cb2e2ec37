import HeadPercolation.Proofs.Category
import HeadPercolation.Proofs.Finder.HeadPath
import HeadPercolation.Proofs.Semantic.Copula

namespace HeadPercolation

section Categories

variable {t : Tree} {parent : Option Parent}

-- An inverted clause is not an SQ, whatever is above it.
theorem isExistential_of_inverted (hcategory : t.basicCategory = "SINV") :
    isExistential t parent = false := by
  cases parent with
  | none => rfl
  | some parent =>
      rw [isExistential, hcategory]
      rfl

theorem isWhQuestion_of_inverted (hcategory : t.basicCategory = "SINV") :
    isWhQuestion t parent = false := by
  cases parent with
  | none => rfl
  | some parent =>
      have hlabel : Text.startsWith "SINV" t.label = true := by
        rw [← hcategory]
        exact startsWith_basicCategory t.label
      have hnot : Text.startsWith "SQ" t.label = false := by
        by_contra hstarts
        rw [Bool.not_eq_false, Text.startsWith, List.isPrefixOf_iff_prefix] at hstarts
        rw [Text.startsWith, List.isPrefixOf_iff_prefix] at hlabel
        have hprefix := List.prefix_of_prefix_length_le hstarts hlabel (by decide)
        exact absurd hprefix (by decide)
      rw [isWhQuestion, hnot]
      rfl

end Categories

-- Of what is above a node, the table and the rule for only children see nothing.
theorem HeadFinder.head_congr_parent {hf : HeadFinder} {t : Tree} {parent parent' : Option Parent}
    (h : 2 ≤ t.children.length → hf.special t parent = hf.special t parent') :
    hf.head t parent = hf.head t parent' := by
  cases t with
  | leaf word => rfl
  | node label children =>
      cases children with
      | nil => rfl
      | cons kid kids =>
          simp only [head]
          split
          · rfl
          · split
            · rfl
            · rename_i hlength
              have hchoice : 2 ≤ (kid :: kids).length := by
                rw [List.length_cons] at hlength ⊢
                omega
              rw [chosenHead, chosenHead, h hchoice]

namespace SemanticFinder

variable {f : SemanticFinder} {t : Tree}

-- The nodes whose heads can depend on what is above them: a verb phrase or an SQ with a copula
-- among two or more children.
structure ParentMatters (f : SemanticFinder) (t : Tree) : Prop where
  category : t.basicCategory ∈ ["VP", "SQ"]
  choice : 2 ≤ t.children.length
  copula : ∃ kid ∈ t.children, f.IsCopular kid ∧ f.verbalTags.contains kid.label = true

theorem not_parentMatters_of_empty (h : f.copularVerbs = .empty) (t : Tree) :
    ¬f.ParentMatters t := by
  rintro ⟨-, -, kid, -, hkid, -⟩
  exact not_isCopular_of_empty h kid hkid

-- What is above a clause is looked at only if it has a copula, and above an inverted one there is
-- nothing to be found.
theorem linksComplement_eq_of_not_parentMatters (h : ¬f.ParentMatters t)
    (hchoice : 2 ≤ t.children.length) (hcategory : t.basicCategory ∈ ["VP", "SQ", "SINV"])
    (parent parent' : Option Parent) :
    f.linksComplement t parent = f.linksComplement t parent' := by
  cases hcopula : f.hasCopula t.children with
  | false => simp only [linksComplement, hcopula, Bool.false_and]
  | true =>
      have hinverted : t.basicCategory = "SINV" := by
        by_contra hnot
        have hclause : t.basicCategory ∈ ["VP", "SQ"] := by simpa [hnot] using hcategory
        exact h ⟨hclause, hchoice, hasCopula_iff.mp hcopula⟩
      simp only [linksComplement, isExistential_of_inverted hinverted,
        isWhQuestion_of_inverted hinverted]

theorem special_eq_of_not_parentMatters (h : ¬f.ParentMatters t)
    (hchoice : 2 ≤ t.children.length) (parent parent' : Option Parent) :
    f.special t parent = f.special t parent' := by
  have hverbal (hcategory : t.basicCategory ∈ ["VP", "SQ", "SINV"]) :
      f.verbalHead t parent = f.verbalHead t parent' := by
    rw [verbalHead_eq, verbalHead_eq,
      linksComplement_eq_of_not_parentMatters h hchoice hcategory parent parent']
  unfold special
  split
  · rfl
  · rfl
  · rename_i hcategory
    rw [hverbal (by simp [hcategory])]
  · rename_i hcategory
    rw [hverbal (by simp [hcategory])]
  · rename_i hcategory
    rw [hverbal (by simp [hcategory])]
  · rfl

theorem head_eq_of_not_parentMatters (h : ¬f.ParentMatters t) (parent parent' : Option Parent) :
    f.toHeadFinder.head t parent = f.toHeadFinder.head t parent' :=
  HeadFinder.head_congr_parent fun hchoice =>
    special_eq_of_not_parentMatters h hchoice parent parent'

section Tables

variable {tables : Config.Tables} {setting : Option Bool}

theorem choosesChildren (h : ofTables tables setting = .ok f) : f.toHeadFinder.ChoosesChildren where
  marked := (HeadFinder.choosesChildren_of_ofRules (ofTables_base h) f.adjust).marked
  special := by
    intro t parent path hpath
    rcases f.special_eq_ok t parent with hnone | ⟨i, hi, hsome⟩
    · cases hnone.symm.trans hpath
    · cases hsome.symm.trans hpath
      exact ⟨i, hi, rfl⟩

theorem copularVerbs_of_copulaIsHead (h : ofTables tables setting = .ok f)
    (hflag : f.copulaIsHead = true) : f.copularVerbs = .empty := by
  have hwords := ofTables_words h
  have hsetting : setting.getD tables.copulaIsHead = true := by
    rw [← hflag]
    exact (congrArg copulaIsHead hwords).symm
  have hverbs := congrArg copularVerbs hwords
  rw [hverbs]
  exact if_pos hsetting

-- The index of a head that is found without a parent is the one in a map of heads of a tree.
theorem headIndex_mem_headMap (h : ofTables tables setting = .ok f) {above : Option Parent}
    {heads : List (Node × Path)} (hmap : f.toHeadFinder.headMap t above = .ok heads) {n : Node}
    (hn : n ∈ t.nodes) (hinner : n.tree.isLeaf = false) (hfree : ¬f.ParentMatters n.tree) :
    ∃ i, (n, [i]) ∈ heads ∧ f.toHeadFinder.headIndex n.tree none = .ok i := by
  obtain ⟨way, hentry, hway⟩ := (HeadFinder.isHeadMap_of_headMap hmap).exists_mem hn hinner
  have hhead : f.toHeadFinder.head n.tree none = .ok way := by
    rw [head_eq_of_not_parentMatters hfree none (t.parentAt above n.path)]
    exact hway
  obtain ⟨i, -, rfl⟩ := (choosesChildren h).head_eq_ok hinner hhead
  exact ⟨i, hentry, HeadFinder.headIndex_of_head hinner hhead⟩

-- What is above a node makes no difference to its head, except for a VP or an SQ with a copula
-- among two or more children, and none at all if copulas are heads. Everywhere else the index of
-- the head can be had without a parent.
theorem head_eq_or_parentMatters (h : ofTables tables setting = .ok f) :
    (∀ t parent parent',
      f.toHeadFinder.head t parent = f.toHeadFinder.head t parent' ∨ f.ParentMatters t) ∧
      (f.copulaIsHead = true → ∀ t parent parent',
        f.toHeadFinder.head t parent = f.toHeadFinder.head t parent') ∧
        ∀ t above heads, f.toHeadFinder.headMap t above = .ok heads →
          ∀ n ∈ t.nodes, n.tree.isLeaf = false → ¬f.ParentMatters n.tree →
            ∃ i, (n, [i]) ∈ heads ∧ f.toHeadFinder.headIndex n.tree none = .ok i := by
  refine ⟨fun t parent parent' => ?_, fun hflag t parent parent' => ?_, ?_⟩
  · by_cases hmatters : f.ParentMatters t
    · exact Or.inr hmatters
    · exact Or.inl (head_eq_of_not_parentMatters hmatters parent parent')
  · have hempty := copularVerbs_of_copulaIsHead h hflag
    exact head_eq_of_not_parentMatters (not_parentMatters_of_empty hempty t) parent parent'
  · exact fun t above heads hmap n hn hinner hfree => headIndex_mem_headMap h hmap hn hinner hfree

-- `is a man` is headed by its noun phrase, and in `there is a man` by the copula.
theorem parentMatters_existential :
    let t : Tree := .node "VP" [.node "VBZ" [.leaf "is"],
      .node "NP" [.node "DT" [.leaf "a"], .node "NN" [.leaf "man"]]]
    let parent : Parent := ⟨.node "S" [.node "NP" [.node "EX" [.leaf "there"]], t], some 1⟩
    ∃ f, ofTables Config.Packaged.tables (some false) = .ok f ∧
      f.toHeadFinder.head t none = .ok [1] ∧ f.toHeadFinder.head t (some parent) = .ok [0] ∧
        f.ParentMatters t := by
  intro t parent
  have hrun : (do
      let f ← ofTables Config.Packaged.tables (some false)
      let alone ← f.toHeadFinder.head t none
      let existential ← f.toHeadFinder.head t (some parent)
      return (alone, existential)).toOption = some ([1], [0]) := by
    decide +kernel
  obtain ⟨f, hf, hrun⟩ := bind_eq_ok.mp (toOption_eq_some.mp hrun)
  obtain ⟨alone, halone, hrun⟩ := bind_eq_ok.mp hrun
  obtain ⟨existential, hexistential, hrun⟩ := bind_eq_ok.mp hrun
  cases hrun
  refine ⟨f, hf, halone, hexistential, ?_⟩
  rcases (head_eq_or_parentMatters hf).1 t none (some parent) with hsame | hmatters
  · rw [halone, hexistential] at hsame
    cases hsame
  · exact hmatters

end Tables

end SemanticFinder

end HeadPercolation
