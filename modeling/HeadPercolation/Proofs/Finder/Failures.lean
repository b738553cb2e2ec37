import HeadPercolation.Proofs.Finder.Choice
import HeadPercolation.Proofs.Finder.Percolation

namespace HeadPercolation

-- Does an error blame the rules of a finder and not a node?
def HeadError.BlamesRules : HeadError → Prop
  | .emptyRules _ | .unknownDirection _ | .undecided => True
  | _ => False

abbrev SparesRules {α : Type} (x : Except HeadError α) : Prop :=
  FailsOnlyWith (¬ ·.BlamesRules) x

namespace HeadFinder

variable {hf : HeadFinder}

-- Whatever a finder is asked, no error blames its rules.
structure HasSoundRules (hf : HeadFinder) : Prop where
  head : ∀ t parent, SparesRules (hf.head t parent)
  headIndex : ∀ t parent, SparesRules (hf.headIndex t parent)
  headTerminal : ∀ t parent, SparesRules (hf.headTerminal t parent)
  headPreterminal : ∀ t parent, SparesRules (hf.headPreterminal t parent)
  headMap : ∀ t parent, SparesRules (hf.headMap t parent)
  dependencies : ∀ t, SparesRules (hf.dependencies t)

theorem descend_sparesRules (h : ∀ t parent, SparesRules (hf.head t parent))
    (stop : Tree → Bool) (t : Tree) (parent : Option Parent) :
    SparesRules (hf.descend stop t parent) := by
  fun_induction hf.descend stop t parent with
  | case1 t parent hstop => exact failsOnlyWith_ok _
  | case2 t parent hstop ih =>
      refine (h t parent).bind fun way => ?_
      split
      · exact failsOnlyWith_error id
      · rename_i i path
        split
        · exact failsOnlyWith_error id
        · rename_i s hs
          exact (ih i path s hs).bind fun n => failsOnlyWith_ok _

theorem lexicalHead_sparesRules (heads : Path → Option Path) (n : Node) :
    SparesRules (lexicalHead heads n) := by
  fun_induction lexicalHead heads n with
  | case1 n hleaf => exact failsOnlyWith_ok _
  | case2 n hleaf heads' => exact failsOnlyWith_error id
  | case3 => exact failsOnlyWith_error id
  | case4 => exact failsOnlyWith_error id
  | case5 => assumption

theorem headMap_sparesRules (h : ∀ t parent, SparesRules (hf.head t parent)) (t : Tree)
    (parent : Option Parent) : SparesRules (hf.headMap t parent) := by
  rw [headMap_eq_mapM]
  apply failsOnlyWith_mapM
  intro p
  exact (h p.node.tree p.parent).bind fun way => failsOnlyWith_ok _

theorem hasSoundRules_of_head (h : ∀ t parent, SparesRules (hf.head t parent)) :
    hf.HasSoundRules where
  head := h
  headIndex t parent := by
    unfold headIndex
    split
    · exact failsOnlyWith_error id
    · refine (h t parent).bind fun way => ?_
      split
      · exact failsOnlyWith_ok _
      · exact failsOnlyWith_error id
  headTerminal t parent := descend_sparesRules h _ t parent
  headPreterminal t parent := (descend_sparesRules h _ t parent).bind fun n => failsOnlyWith_ok _
  headMap t parent := headMap_sparesRules h t parent
  dependencies t := by
    refine (headMap_sparesRules h t none).bind fun heads => ?_
    dsimp only
    refine (failsOnlyWith_mapM (fun entry => ?_) heads).bind fun lists => failsOnlyWith_ok _
    split
    · refine (lexicalHead_sparesRules _ _).bind fun governor => ?_
      apply failsOnlyWith_mapM
      exact fun child => (lexicalHead_sparesRules _ child).bind fun word => failsOnlyWith_ok _
    · exact failsOnlyWith_error id

-- With directives for the category the table always has a choice, so all that can be missing is a
-- child or an entry.
theorem head_sparesRules (hmarked : hf.marked = fun _ => none)
    (hrules : ∀ category ds, hf.rules.get? category = some ds → ds ≠ [])
    (hspecial : ∀ t parent, SparesRules (hf.special t parent))
    (hkeeps : ∀ children, KeepsInside hf.adjust children) (t : Tree) (parent : Option Parent) :
    SparesRules (hf.head t parent) := by
  have htable (t : Tree) (hne : t.children ≠ []) : SparesRules (hf.tableHead t) := by
    have hlast (d : Directive) : SparesRules (hf.locateLast t.children d) := by
      obtain ⟨i, calls, hok, -⟩ := locateLast_settles (hkeeps t.children) hne d
      rw [hok]
      exact failsOnlyWith_ok i
    unfold tableHead
    split
    · rename_i ds hds
      obtain ⟨i, calls, hok, -⟩ := locateFirst_settles (hkeeps t.children) hne (hrules _ ds hds)
      rw [hok]
      exact failsOnlyWith_ok i
    · split
      · exact hlast _
      · exact failsOnlyWith_error id
  cases t with
  | leaf word => exact failsOnlyWith_ok []
  | node label children =>
      cases children with
      | nil => exact failsOnlyWith_error id
      | cons kid kids =>
          have hne : (Tree.node label (kid :: kids)).children ≠ [] := List.cons_ne_nil kid kids
          simp only [head, hmarked]
          split
          · exact failsOnlyWith_ok [0]
          · refine (hspecial _ parent).bind fun found => ?_
            split
            · exact failsOnlyWith_ok _
            · exact (htable _ hne).bind fun i => failsOnlyWith_ok [i]

end HeadFinder

end HeadPercolation
