import HeadPercolation.Config.Packaged.Settings
import HeadPercolation.Proofs.Finder.Dependencies
import HeadPercolation.Proofs.Semantic.Coordination
import HeadPercolation.Proofs.Semantic.Patterns
import HeadPercolation.Proofs.Semantic.Rules

namespace HeadPercolation

-- Has each node of a tree but the leaves a child, and a rule if it has two or more?
def Tree.IsCovered (rules : Table (List Directive)) (t : Tree) : Prop :=
  ∀ way s, t.get? way = some s → s.isLeaf = false →
    0 < s.children.length ∧
      (2 ≤ s.children.length → (rules.get? (HeadFinder.ruleCategory s)).isSome)

instance (rules : Table (List Directive)) (t : Tree) : Decidable (t.IsCovered rules) :=
  decidable_of_iff (∀ n ∈ (Node.root t).below, n.tree.isLeaf = false →
      0 < n.tree.children.length ∧
        (2 ≤ n.tree.children.length → (rules.get? (HeadFinder.ruleCategory n.tree)).isSome)) <| by
    constructor
    · intro h way s hget
      exact h ⟨way, s⟩ (Node.mem_below.mpr ⟨way, rfl, hget⟩)
    · intro h n hn
      obtain ⟨way, -, hget⟩ := Node.mem_below.mp hn
      exact h way n.tree hget

namespace SemanticFinder

-- Does a finder find all heads in a tree, whatever is said to be above the nodes?
structure FindsHeads (f : SemanticFinder) (t : Tree) : Prop where
  head : ∀ way s parent, t.get? way = some s → s.isLeaf = false →
    ∃ i < s.children.length, f.toHeadFinder.head s parent = .ok [i] ∧
      f.toHeadFinder.headIndex s parent = .ok i
  headMap : ∀ parent, ∃ heads, f.toHeadFinder.headMap t parent = .ok heads
  headTerminal : ∀ parent, ∃ word, f.toHeadFinder.headTerminal t parent = .ok word
  dependencies : ∃ deps, f.toHeadFinder.dependencies t = .ok deps

variable {f : SemanticFinder} {t : Tree}

theorem besideAuxiliary_places (f : SemanticFinder) (children : List Tree) :
    Places children.length (f.besideAuxiliary children) :=
  HeadFinder.locate_places (f.adjust_keepsInside children) mainVerbDirective

-- The candidates keep their places among the children.
theorem complement_places (f : SemanticFinder) (t : Tree) :
    Places t.children.length (f.complement t) := by
  unfold complement
  generalize hcandidates : t.children.zipIdx.filter (!isCircumstance ·.1) = candidates
  have hkeeps : KeepsInside f.adjusted.adjust (candidates.map (·.1)) := f.adjust_keepsInside _
  rcases HeadFinder.locate_places hkeeps (complementDirective t) with hnone | ⟨i, hi, hsome⟩
  · left
    rw [bind_of_eq_ok hnone]
    rfl
  · rw [List.length_map] at hi
    have hmem : candidates[i] ∈ t.children.zipIdx := by
      apply List.mem_of_mem_filter
      rw [hcandidates]
      exact List.getElem_mem hi
    have hplace : candidates[i].2 < t.children.length := List.snd_lt_of_mem_zipIdx hmem
    rw [bind_of_eq_ok hsome]
    simp only [List.getElem?_eq_getElem hi]
    by_cases hsubject : (t.basicCategory == "SQ" && Text.startsWith "NP" candidates[i].1.label &&
        !hasNounPhraseBefore t.children candidates[i].2) = true
    · left
      rw [hsubject]
      rfl
    · right
      refine ⟨candidates[i].2, hplace, ?_⟩
      rw [Bool.eq_false_of_not_eq_true hsubject]
      rfl

theorem verbalHead_places (f : SemanticFinder) (t : Tree) (parent : Option Parent) :
    Places t.children.length (f.verbalHead t parent) := by
  have hbeside : Places t.children.length
      (if f.hasAnyAuxiliary t.children then f.besideAuxiliary t.children else .ok none) := by
    split
    · exact f.besideAuxiliary_places t.children
    · exact Or.inl rfl
  have hlinked : Places t.children.length
      (if f.linksComplement t parent then f.complement t else .ok none) := by
    split
    · exact f.complement_places t
    · exact Or.inl rfl
  have hplaces := hbeside.orElse hlinked
  unfold verbalHead
  cases hauxiliary : f.hasAnyAuxiliary t.children <;>
    cases hlinks : f.linksComplement t parent <;>
      rw [hauxiliary, hlinks] at hplaces <;>
        exact hplaces

-- The head that is looked for before the table is no error, and a child if anything.
theorem special_eq_ok (f : SemanticFinder) (t : Tree) (parent : Option Parent) :
    f.special t parent = .ok none ∨
      ∃ i < t.children.length, f.special t parent = .ok (some [i]) := by
  have hverbal : (do return (← f.verbalHead t parent).map ([·])) = .ok none ∨
      ∃ i < t.children.length,
        (do return (← f.verbalHead t parent).map ([·])) = .ok (some [i]) := by
    rcases f.verbalHead_places t parent with hnone | ⟨i, hi, hsome⟩
    · left
      rw [bind_of_eq_ok hnone]
      rfl
    · right
      refine ⟨i, hi, ?_⟩
      rw [bind_of_eq_ok hsome]
      rfl
  unfold special
  split
  · exact f.patternHead_eq_ok (List.subset_append_left _ _) t
  · split
    · exact Or.inl rfl
    · exact f.patternHead_eq_ok (List.subset_append_right _ _) t
  · exact hverbal
  · exact hverbal
  · exact hverbal
  · exact Or.inl rfl

section Accepted

variable {tables : Config.Tables} {copulaIsHead : Option Bool} {s : Tree}

-- Whatever chooses the head of a node with a rule, it is one of its children.
theorem exists_chosenHead_eq_ok (h : ofTables tables copulaIsHead = .ok f)
    (hne : s.children ≠ [])
    (hrule : (tables.semanticRules.get? (HeadFinder.ruleCategory s)).isSome)
    (parent : Option Parent) :
    ∃ i < s.children.length, f.toHeadFinder.chosenHead s parent = .ok [i] := by
  rcases f.special_eq_ok s parent with hnone | ⟨i, hi, hsome⟩
  · obtain ⟨hget, hnonempty⟩ := ofTables_get? h (HeadFinder.ruleCategory s)
    rw [← hget] at hrule
    obtain ⟨ds, hds⟩ := Option.isSome_iff_exists.mp hrule
    have hkeeps : KeepsInside f.toHeadFinder.adjust s.children := f.adjust_keepsInside s.children
    have hrules : (f.toHeadFinder.rules.get? (HeadFinder.ruleCategory s)).or
        (f.toHeadFinder.defaultRule.map ([·])) = some ds := by
      change (f.base.rules.get? (HeadFinder.ruleCategory s)).or _ = some ds
      rw [hds]
      rfl
    obtain ⟨i, calls, hok, hsettles, -⟩ :=
      HeadFinder.tableHead_settles hkeeps hne (hnonempty ds hds) hrules
    exact ⟨i, hsettles.lt hkeeps, HeadFinder.chosenHead_of_tableHead hnone hok⟩
  · exact ⟨i, hi, HeadFinder.chosenHead_of_special hsome⟩

theorem findsChild_of_accepted (h : ofTables tables copulaIsHead = .ok f)
    (hpos : 0 < s.children.length)
    (hrule : 2 ≤ s.children.length →
      (tables.semanticRules.get? (HeadFinder.ruleCategory s)).isSome)
    (parent : Option Parent) : f.toHeadFinder.FindsChild s parent := by
  have hmarked : f.toHeadFinder.marked s = none :=
    congrFun (congrArg HeadFinder.marked (ofTables_shape h)) s
  by_cases honly : s.children.length = 1
  · exact ⟨0, hpos, HeadFinder.head_of_length_eq_one hmarked honly parent⟩
  · have hchoice : 2 ≤ s.children.length := by omega
    have hne : s.children ≠ [] := List.ne_nil_of_length_pos hpos
    obtain ⟨i, hi, hok⟩ := exists_chosenHead_eq_ok h hne (hrule hchoice) parent
    exact ⟨i, hi, (HeadFinder.head_of_two_le_length hmarked hchoice parent).trans hok⟩

theorem findsChildren_of_accepted (h : ofTables tables copulaIsHead = .ok f)
    (ht : t.IsCovered tables.semanticRules) (above : Option Parent) :
    f.toHeadFinder.FindsChildren t above := by
  intro way s hget hinner
  obtain ⟨hpos, hrule⟩ := ht way s hget hinner
  exact findsChild_of_accepted h hpos hrule _

end Accepted

theorem packaged_semanticRules_ne_nil (category : String) (ds : List Directive)
    (h : Config.Packaged.tables.semanticRules.get? category = some ds) : ds ≠ [] := by
  have hhead : ∀ entry ∈ Config.Packaged.headRules.entries, entry.2 ≠ [] := by decide +kernel
  have hsemantic : ∀ entry ∈ Config.Packaged.semanticHeadRules.entries, entry.2 ≠ [] := by
    decide +kernel
  rw [Config.Tables.semanticRules, Table.get?_update, Option.or_eq_some_iff] at h
  rcases h with h | ⟨-, h⟩
  · exact hsemantic _ (Table.get?_eq_some_iff.mp h)
  · exact hhead _ (Table.get?_eq_some_iff.mp h)

theorem findsHeads_of_accepted {tables : Config.Tables} {copulaIsHead : Option Bool}
    (h : ofTables tables copulaIsHead = .ok f) (ht : t.IsCovered tables.semanticRules) :
    f.FindsHeads t where
  head := by
    intro way s parent hget hinner
    obtain ⟨hpos, hrule⟩ := ht way s hget hinner
    obtain ⟨i, hi, hok⟩ := findsChild_of_accepted h hpos hrule parent
    exact ⟨i, hi, hok, HeadFinder.headIndex_of_head hinner hok⟩
  headMap := fun parent => ⟨_, (findsChildren_of_accepted h ht parent).headMap_eq_ok⟩
  headTerminal := by
    intro parent
    have hroot := (Node.root t).mem_below_self
    obtain ⟨word, hword, -⟩ := (findsChildren_of_accepted h ht parent).descend_eq_ok hroot
    exact ⟨word, hword⟩
  dependencies := ⟨_, (findsChildren_of_accepted h ht none).dependencies_eq_ok⟩

-- A finder of the packaged configuration finds all heads of a tree that the head rules cover. A
-- match of a fixed pattern captures a child, and a head that is moved stays in its list.
theorem packaged_findsHeads (copulaIsHead : Option Bool)
    (ht : t.IsCovered Config.Packaged.tables.semanticRules) :
    ∃ f, ofTables Config.Packaged.tables copulaIsHead = .ok f ∧ f.FindsHeads t ∧
      (∀ pattern ∈ conjunctionPatterns ++ questionPatterns, ∀ s, f.CapturesChild pattern s) ∧
        ∀ children, KeepsInside f.adjust children := by
  obtain ⟨f, hf⟩ := exists_ofTables_eq_ok copulaIsHead packaged_semanticRules_ne_nil
  refine ⟨f, hf, findsHeads_of_accepted hf ht, ?_, f.adjust_keepsInside⟩
  exact fun pattern hpattern s => f.capturesChild_of_mem hpattern s

-- `what is wrong`, with a head that is captured by a pattern.
theorem packaged_findsHeads_question :
    let t : Tree := .node "SBARQ" [.node "WHNP" [.node "WP" [.leaf "what"]],
      .node "VBZ" [.leaf "is"], .node "ADJP" [.node "JJ" [.leaf "wrong"]], .node "." [.leaf "?"]]
    t.IsCovered Config.Packaged.tables.semanticRules ∧
      ∃ f, ofTables Config.Packaged.tables (some false) = .ok f ∧ f.FindsHeads t ∧
        (∀ pattern ∈ conjunctionPatterns ++ questionPatterns, ∀ s, f.CapturesChild pattern s) ∧
          ∀ children, KeepsInside f.adjust children := by
  intro t
  have ht : t.IsCovered Config.Packaged.tables.semanticRules := by decide +kernel
  exact ⟨ht, packaged_findsHeads (some false) ht⟩

end SemanticFinder

end HeadPercolation
