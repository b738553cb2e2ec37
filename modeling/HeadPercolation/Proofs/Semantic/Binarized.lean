import HeadPercolation.Proofs.Category
import HeadPercolation.Proofs.Semantic.Copula

namespace HeadPercolation

-- A node with an at sign before its label.
def Tree.binarized : Tree → Tree
  | leaf word => leaf ("@" ++ word)
  | node label children => node ("@" ++ label) children

-- Does a label begin with a letter, or with anything else but an at sign or an annotation mark?
def BeginsCategory (label : String) : Prop :=
  ∃ c cs, label.toList = c :: cs ∧ c ≠ '@' ∧ isAnnotationMark c = false

variable {t : Tree}

namespace Tree

theorem label_binarized (t : Tree) : t.binarized.label = "@" ++ t.label := by
  cases t <;> rfl

theorem children_binarized (t : Tree) : t.binarized.children = t.children := by
  cases t <;> rfl

-- The at sign is no mark, and behind it a label is cut where it was cut before.
theorem toList_basicCategory_binarized (h : BeginsCategory t.label) :
    t.binarized.basicCategory.toList = '@' :: t.basicCategory.toList := by
  obtain ⟨c, cs, hlabel, -, hmark⟩ := h
  have hat : isAnnotationMark '@' = false := by decide
  have hlabel' : t.binarized.label.toList = '@' :: c :: cs := by
    rw [label_binarized, String.toList_append, hlabel]
    rfl
  calc t.binarized.basicCategory.toList
      = categoryOf ('@' :: c :: cs) := by rw [basicCategory, toList_basicCategory, hlabel']
    _ = '@' :: (c :: cs).takeWhile (!isAnnotationMark ·) := by
        rw [categoryOf_cons _ hat, List.takeWhile_cons_of_pos (by rw [hat]; rfl)]
    _ = '@' :: t.basicCategory.toList := by
        rw [basicCategory, toList_basicCategory, hlabel, categoryOf_cons cs hmark]

theorem toList_basicCategory_ne_at (h : BeginsCategory t.label) (cs : List Char) :
    t.basicCategory.toList ≠ '@' :: cs := by
  obtain ⟨c, ds, hlabel, hat, hmark⟩ := h
  rw [basicCategory, toList_basicCategory, hlabel, categoryOf_cons ds hmark,
    List.takeWhile_cons_of_pos (by rw [hmark]; rfl)]
  exact fun heq => hat (List.cons.inj heq).1

end Tree

namespace HeadFinder

variable {hf : HeadFinder}

theorem ruleCategory_binarized (h : BeginsCategory t.label) :
    ruleCategory t.binarized = ruleCategory t := by
  have hstripped : ruleCategory t.binarized = String.ofList t.basicCategory.toList := by
    rw [ruleCategory, Tree.toList_basicCategory_binarized h]
    rfl
  rw [hstripped, ruleCategory]
  split
  · rename_i cs hcategory
    exact absurd hcategory (Tree.toList_basicCategory_ne_at h cs)
  · rfl

-- The table makes no difference between the two. An error names the node.
theorem tableHead_binarized (hf : HeadFinder) (h : BeginsCategory t.label) :
    (hf.tableHead t.binarized).toOption = (hf.tableHead t).toOption := by
  unfold tableHead
  rw [ruleCategory_binarized h, Tree.children_binarized]
  split
  · rfl
  · split <;> rfl

-- A finder that looks at nothing before its table finds the same head for both, or none.
theorem head_binarized (hmarked : hf.marked = fun _ => none)
    (hspecial : hf.special = fun _ _ => .ok none) (h : BeginsCategory t.label)
    (parent parent' : Option Parent) :
    (hf.head t.binarized parent').toOption = (hf.head t parent).toOption := by
  have hnone (s : Tree) : hf.marked s = none := congrFun hmarked s
  have hchosen (s : Tree) (above : Option Parent) :
      (hf.chosenHead s above).toOption = (hf.tableHead s).toOption.map ([·]) := by
    rw [chosenHead, hspecial]
    cases hf.tableHead s <;> rfl
  have hlength : t.binarized.children.length = t.children.length := by
    rw [Tree.children_binarized]
  by_cases honly : t.children.length = 1
  · rw [head_of_length_eq_one (hnone t) honly,
      head_of_length_eq_one (hnone t.binarized) (hlength.trans honly)]
  · by_cases hchoice : 2 ≤ t.children.length
    · rw [head_of_two_le_length (hnone t) hchoice,
        head_of_two_le_length (hnone t.binarized) (hlength ▸ hchoice), hchosen, hchosen,
        tableHead_binarized hf h]
    · -- a leaf is its own head, and a node without children has none
      have hempty : t.children = [] := List.length_eq_zero_iff.mp (by omega)
      cases t with
      | leaf word => rfl
      | node label children =>
          obtain rfl : children = [] := hempty
          rfl

end HeadFinder

namespace SemanticFinder

variable {f : SemanticFinder} {tables : Config.Tables} {setting : Option Bool}

-- The categories that are looked at before the head rules.
def overriddenCategories : List String :=
  ["CONJP", "SBARQ", "VP", "SQ", "SINV"]

theorem special_of_notMem (h : t.basicCategory ∉ overriddenCategories) (parent : Option Parent) :
    f.special t parent = .ok none := by
  unfold special
  split <;> simp_all [overriddenCategories]

-- A node with an at sign before its label is looked at by the head rules alone.
theorem special_binarized (h : BeginsCategory t.label) (parent : Option Parent) :
    f.special t.binarized parent = .ok none := by
  have hfirst : ∀ category ∈ overriddenCategories, category.toList.head? ≠ some '@' := by
    decide
  apply special_of_notMem
  intro hmem
  apply hfirst _ hmem
  rw [Tree.toList_basicCategory_binarized h, List.head?_cons]

theorem head_of_special {parent : Option Parent} {i : Nat} (hmarked : f.base.marked t = none)
    (hi : i < t.children.length) (h : f.special t parent = .ok (some [i])) :
    f.toHeadFinder.head t parent = .ok [i] := by
  have hmarked' : f.toHeadFinder.marked t = none := hmarked
  by_cases honly : t.children.length = 1
  · obtain rfl : i = 0 := by omega
    exact HeadFinder.head_of_length_eq_one hmarked' honly parent
  · rw [HeadFinder.head_of_two_le_length hmarked' (by omega)]
    exact HeadFinder.chosenHead_of_special h

-- The head of a node with an at sign before its label is the one that the head rules alone find
-- without the sign. So it is the same as without, unless a head is named there before the rules.
theorem head_binarized_or_overridden (h : ofTables tables setting = .ok f)
    (hlabel : BeginsCategory t.label) (parent parent' : Option Parent) :
    (f.toHeadFinder.head t.binarized parent').toOption = (f.adjusted.head t parent).toOption ∧
      ((f.toHeadFinder.head t.binarized parent').toOption =
          (f.toHeadFinder.head t parent).toOption ∨
        (t.basicCategory ∈ overriddenCategories ∧
          ∃ i < t.children.length, f.special t parent = .ok (some [i]) ∧
            f.toHeadFinder.head t parent = .ok [i])) := by
  have hmarked : f.adjusted.marked = fun _ => none := congrArg HeadFinder.marked (ofTables_shape h)
  have hspecial : f.adjusted.special = fun _ _ => .ok none :=
    congrArg HeadFinder.special (ofTables_shape h)
  have hrules (s : Tree) (above : Option Parent) (hnone : f.special s above = .ok none) :
      f.toHeadFinder.head s above = f.adjusted.head s above := by
    have hsame : f.special s above = f.adjusted.special s above := by rw [hnone, hspecial]
    exact HeadFinder.head_special hsame
  have hbinarized : (f.toHeadFinder.head t.binarized parent').toOption =
      (f.adjusted.head t parent).toOption := by
    rw [hrules _ _ (special_binarized hlabel parent')]
    exact HeadFinder.head_binarized hmarked hspecial hlabel parent parent'
  refine ⟨hbinarized, ?_⟩
  rcases f.special_eq_ok t parent with hnone | ⟨i, hi, hsome⟩
  · left
    rw [hbinarized, hrules t parent hnone]
  · right
    have hmem : t.basicCategory ∈ overriddenCategories := by
      by_contra hnotMem
      rw [special_of_notMem hnotMem] at hsome
      cases hsome
    exact ⟨hmem, i, hi, hsome, head_of_special (congrFun hmarked t) hi hsome⟩

-- A noun phrase with a function tag, in a coordination, under two different parents.
theorem head_binarized_or_overridden_conjoined :
    let word (tag text : String) : Tree := .node tag [.leaf text]
    let t : Tree := .node "NP-SBJ" [word "NN" "bread", word "CC" "and", word "NN" "butter"]
    let parent : Option Parent := some ⟨.node "S" [t, .node "VP" [word "VBZ" "helps"]], some 0⟩
    ∃ f, ofTables Config.Packaged.tables none = .ok f ∧ BeginsCategory t.label ∧
      f.toHeadFinder.head t parent = .ok [0] ∧
        (f.toHeadFinder.head t.binarized none).toOption = (f.adjusted.head t parent).toOption ∧
          ((f.toHeadFinder.head t.binarized none).toOption =
              (f.toHeadFinder.head t parent).toOption ∨
            (t.basicCategory ∈ overriddenCategories ∧
              ∃ i < t.children.length, f.special t parent = .ok (some [i]) ∧
                f.toHeadFinder.head t parent = .ok [i])) := by
  intro word t parent
  have hrun : (ofTables Config.Packaged.tables none >>=
      (·.toHeadFinder.head t parent)).toOption = some [0] := by
    decide +kernel
  obtain ⟨f, hf, hhead⟩ := bind_eq_ok.mp (toOption_eq_some.mp hrun)
  have hlabel : BeginsCategory t.label := ⟨'N', "P-SBJ".toList, by decide, by decide, by decide⟩
  exact ⟨f, hf, hlabel, hhead, head_binarized_or_overridden hf hlabel parent none⟩

-- In `has eaten` the verb phrase is the head, but with an at sign the auxiliary is.
theorem head_binarized_auxiliary :
    let t : Tree := .node "VP" [.node "VBZ" [.leaf "has"],
      .node "VP" [.node "VBN" [.leaf "eaten"]]]
    ∃ f, ofTables Config.Packaged.tables none = .ok f ∧ BeginsCategory t.label ∧
      f.toHeadFinder.head t none = .ok [1] ∧ f.toHeadFinder.head t.binarized none = .ok [0] := by
  intro t
  have hrun : ((ofTables Config.Packaged.tables none).map fun f =>
      ((f.toHeadFinder.head t none).toOption,
        (f.toHeadFinder.head t.binarized none).toOption)).toOption = some (some [1], some [0]) := by
    decide +kernel
  obtain ⟨f, hf, hheads⟩ := map_eq_ok.mp (toOption_eq_some.mp hrun)
  obtain ⟨hplain, hbinarized⟩ := Prod.mk.inj hheads
  exact ⟨f, hf, ⟨'V', "P".toList, by decide, by decide, by decide⟩, toOption_eq_some.mp hplain,
    toOption_eq_some.mp hbinarized⟩

end SemanticFinder

end HeadPercolation
