import HeadPercolation.Pattern.Match
import HeadPercolation.Proofs.Category
import HeadPercolation.Proofs.HeadRule.Hits
import HeadPercolation.Proofs.Text.Words

namespace HeadPercolation

-- The parts of a label behind its first hyphen, such as `SBJ` and `1` in `NP-SBJ-1`.
def functionTags (label : String) : List String :=
  (Text.partsOf '-' label).tail

variable {tag label : String} {tags : List String}

section Parts

theorem head?_partsOf (mark : Char) (s : String) :
    (Text.partsOf mark s).head? = some (String.ofList (s.toList.takeWhile (· != mark))) := by
  rw [Text.partsOf, List.head?_map, List.splitOn_eq_splitOnP, Text.head?_splitOnP]
  rfl

-- The first part of a label is that of its category.
theorem head?_labelParts (label : String) :
    (labelParts label).head? =
      some (String.ofList ((categoryOf label.toList).takeWhile (· != '-'))) := by
  have hfirst := head?_partsOf '-' label
  unfold labelParts
  split
  · rename_i hnone
    rw [hnone] at hfirst
    cases hfirst
  · rename_i parts hopen
    rw [hopen, List.head?_cons, Option.some.injEq] at hfirst
    have hempty : label.toList.takeWhile (· != '-') = [] := by
      simpa using congrArg String.toList hfirst.symm
    -- the label is empty or opens with a hyphen, and so does its category
    have hcategory : (categoryOf label.toList).takeWhile (· != '-') = [] := by
      cases hlabel : label.toList with
      | nil => rfl
      | cons c cs =>
          rw [hlabel] at hempty
          simpa [categoryOf, List.takeWhile_cons] using hempty
    rw [hcategory, List.head?_cons]
  · rename_i part parts hne hparts
    rw [List.head?_cons, List.headD_eq_head?_getD, head?_partsOf, toList_basicCategory,
      Option.getD_some]

-- The other parts stay as they are written.
theorem tail_labelParts (label : String) : (labelParts label).tail = functionTags label := by
  unfold labelParts functionTags
  split <;> rename_i hparts <;> rw [hparts]
  rfl

theorem ne_hyphen_of_not_isAnnotationMark {c : Char} (h : isAnnotationMark c = false) :
    (c != '-') = true := by
  rw [bne_iff_ne]
  rintro rfl
  cases h

theorem IsPlainTag.hyphen_notMem (h : IsPlainTag tag) : '-' ∉ tag.toList := by
  intro hmem
  have hmark := h.2 '-' hmem
  cases hmark

-- Joined by hyphens, plain tags are the parts of the tag that they make.
theorem partsOf_joined (hne : tags ≠ []) (h : ∀ tag ∈ tags, IsPlainTag tag) :
    Text.partsOf '-' ("-".intercalate tags) = tags := by
  have hpieces : ("-".intercalate tags).toList.splitOn '-' = tags.map String.toList := by
    rw [String.toList_intercalate]
    refine List.splitOn_intercalate '-' ?_ (by simpa using hne)
    exact List.forall_mem_map.mpr fun tag htag => (h tag htag).hyphen_notMem
  rw [Text.partsOf, hpieces, List.map_map]
  simp [Function.comp_def]

theorem IsPlainTag.basicCategory_joined (h : IsPlainTag tag) (tags : List String) :
    basicCategory ("-".intercalate (tag :: tags)) = tag := by
  cases tags with
  | nil => rw [String.intercalate_singleton, h.basicCategory_eq]
  | cons next tags =>
      have hclosed : ¬IsUnclosed '-' tag := by
        rintro ⟨hopens, -⟩
        exact h.hyphen_notMem (List.mem_of_mem_head? hopens)
      have hmark : isAnnotationMark '-' = true := rfl
      have hcategory := basicCategory_append_mark hmark h.1 ("-".intercalate (next :: tags))
      rw [if_neg hclosed, h.basicCategory_eq] at hcategory
      rw [String.intercalate_cons_cons]
      exact hcategory

end Parts

section Matching

-- A hyphen stands in a category only behind the mark that opens it, and plain tags have no marks.
theorem takeWhile_categoryOf_eq_iff (h : IsPlainTag tag) (cs : List Char) :
    (categoryOf cs).takeWhile (· != '-') = tag.toList ↔ categoryOf cs = tag.toList := by
  obtain ⟨hne, hmarks⟩ := h
  constructor
  · intro heq
    cases cs with
    | nil => exact heq
    | cons c cs =>
        cases hc : isAnnotationMark c with
        | false =>
            have hplain : (categoryOf (c :: cs)).takeWhile (· != '-') = categoryOf (c :: cs) := by
              rw [categoryOf_cons cs hc, List.takeWhile_eq_self_iff]
              intro d hd
              exact ne_hyphen_of_not_isAnnotationMark (by simpa using List.mem_takeWhile_imp hd)
            rwa [hplain] at heq
        | true =>
            have hprefix : tag.toList <+: categoryOf (c :: cs) := heq ▸ List.takeWhile_prefix _
            cases htag : tag.toList with
            | nil => exact absurd (String.toList_eq_nil_iff.mp htag) hne
            | cons d ds =>
                rw [htag, categoryOf, List.cons_prefix_cons] at hprefix
                obtain ⟨rfl, -⟩ := hprefix
                have hmem : d ∈ tag.toList := htag ▸ List.mem_cons_self
                rw [hmarks d hmem] at hc
                cases hc
  · intro heq
    rw [heq, List.takeWhile_eq_self_iff]
    exact fun c hc => ne_hyphen_of_not_isAnnotationMark (hmarks c hc)

theorem labelBeginsWith_cons_iff (h : IsPlainTag tag) (tags : List String) :
    labelBeginsWith (tag :: tags) label = true ↔
      basicCategory label = tag ∧ tags <+: functionTags label := by
  have hhead : (labelParts label).head? = some tag ↔ basicCategory label = tag := by
    rw [head?_labelParts, Option.some.injEq, ← String.toList_inj, ← String.toList_inj,
      toList_basicCategory, String.toList_ofList, takeWhile_categoryOf_eq_iff h]
  rw [labelBeginsWith, List.isPrefixOf_iff_prefix, ← hhead, ← tail_labelParts]
  cases labelParts label with
  | nil => simp
  | cons part parts =>
      rw [List.cons_prefix_cons, List.head?_cons, Option.some.injEq, List.tail_cons]
      exact and_congr_left' eq_comm

-- A tag of plain parts matches the labels of the category that comes first, if the others begin
-- their function tags.
theorem labelMatches_joined_iff (h : ∀ part ∈ tag :: tags, IsPlainTag part) :
    labelMatches ("-".intercalate (tag :: tags)) label = true ↔
      basicCategory label = tag ∧ tags <+: functionTags label := by
  have hplain := h tag List.mem_cons_self
  have hparts := partsOf_joined (List.cons_ne_nil tag tags) h
  rw [labelMatches, hparts, Bool.or_eq_true, beq_iff_eq, labelBeginsWith_cons_iff hplain]
  apply or_iff_right_of_imp
  rintro rfl
  rw [functionTags, hparts, List.tail_cons]
  exact ⟨hplain.basicCategory_joined tags, List.prefix_rfl⟩

-- A plain tag matches the labels of its category, and no others.
theorem labelMatches_iff (h : IsPlainTag tag) :
    labelMatches tag label = true ↔ basicCategory label = tag := by
  have hjoined := @labelMatches_joined_iff tag label [] (List.forall_mem_singleton.mpr h)
  rw [String.intercalate_singleton] at hjoined
  simpa using hjoined

theorem Tree.matchesTag_iff {t : Tree} (h : IsPlainTag tag) :
    t.matchesTag tag = true ↔ t.isLeaf = false ∧ t.basicCategory = tag := by
  rw [matchesTag, Bool.and_eq_true, labelMatches_iff h, Bool.not_eq_true', Tree.basicCategory]

-- Tags without annotations begin a list of parts just if they begin it once its annotations are
-- dropped, and the parts in question have none.
theorem isPrefix_iff_beforeMarks {parts : List String} (h : ∀ tag ∈ tags, IsUnmarked tag.toList) :
    tags <+: parts ↔ tags <+: parts.map beforeMarks ∧
      ∀ part ∈ parts.take tags.length, IsUnmarked part.toList := by
  have hbefore {others : List String} (hothers : ∀ part ∈ others, IsUnmarked part.toList) :
      others.map beforeMarks = others := by
    have hself : ∀ part ∈ others, beforeMarks part = id part := fun part hpart =>
      beforeMarks_eq_self_iff.mpr (hothers part hpart)
    rw [List.map_congr_left hself, List.map_id]
  constructor
  · rintro ⟨rest, rfl⟩
    rw [List.map_append, hbefore h, List.take_left]
    exact ⟨List.prefix_append _ _, h⟩
  · rintro ⟨hbegin, hunmarked⟩
    have htags := List.prefix_iff_eq_take.mp hbegin
    rw [← List.map_take, hbefore hunmarked] at htags
    exact List.prefix_iff_eq_take.mpr htags

-- From function tags, annotations are not dropped. A gap index is in the way in `NP-SBJ=2`, while
-- it is not in `NP=2-SBJ`.
theorem Tree.matchesTag_joined_iff (h : ∀ part ∈ tag :: tags, IsPlainTag part) (label : String)
    (kids : List Tree) :
    let t : Tree := .node label kids
    t.matchesTag ("-".intercalate (tag :: tags)) = true ↔
      (t.basicCategory = tag ∧ tags <+: (functionTags t.label).map beforeMarks) ∧
        ∀ part ∈ (functionTags t.label).take tags.length, IsUnmarked part.toList := by
  intro t
  have hunmarked : ∀ part ∈ tags, IsUnmarked part.toList := fun part hpart =>
    (h part (List.mem_cons_of_mem tag hpart)).2
  have hinner : t.matchesTag ("-".intercalate (tag :: tags)) =
      labelMatches ("-".intercalate (tag :: tags)) t.label := rfl
  rw [hinner, labelMatches_joined_iff h, isPrefix_iff_beforeMarks hunmarked, and_assoc,
    Tree.basicCategory]

theorem Tree.matchesTag_joined_iff_gap :
    let t : Tree := .node "NP=2-SBJ-1" [.node "PRP" [.leaf "It"]]
    (∀ part ∈ ["NP", "SBJ"], IsPlainTag part) ∧ t.basicCategory = "NP" ∧
      functionTags t.label = ["SBJ", "1"] ∧
      t.matchesTag ("-".intercalate ["NP", "SBJ"]) = true := by
  intro t
  have hplain : ∀ part ∈ ["NP", "SBJ"], IsPlainTag part := by decide
  have hcategory : t.basicCategory = "NP" := by decide +kernel
  have htags : functionTags t.label = ["SBJ", "1"] := by decide +kernel
  refine ⟨hplain, hcategory, htags, ?_⟩
  have hsubject : ["SBJ"] <+: (functionTags t.label).map beforeMarks := by decide +kernel
  have hunmarked : ∀ part ∈ (functionTags t.label).take 1, IsUnmarked part.toList := by
    decide +kernel
  exact (Tree.matchesTag_joined_iff hplain _ _).mpr ⟨⟨hcategory, hsubject⟩, hunmarked⟩

-- A subject with a gap index behind its function tag.
theorem Tree.not_matchesTag_gap :
    let t : Tree := .node "NP-SBJ=2" [.node "PRP" [.leaf "It"]]
    (∀ part ∈ ["NP", "SBJ"], IsPlainTag part) ∧ t.isLeaf = false ∧ t.basicCategory = "NP" ∧
      ["SBJ"] <+: (functionTags t.label).map beforeMarks ∧
      t.matchesTag ("-".intercalate ["NP", "SBJ"]) = false := by
  decide +kernel

end Matching

section Rules

-- A directive for one category looks for the nearest child that the category matches as a tag, or,
-- if it looks for all others, for the nearest that it does not.
theorem Directive.choose?_tagged (h : IsPlainTag tag) {children : List Tree}
    (hinner : ∀ child ∈ children, child.isLeaf = false) (direction : Direction) :
    (⟨direction, [tag]⟩ : Directive).choose? children =
      direction.edge.search
        (fun child => if direction.selection = .unlisted then !child.matchesTag tag
          else child.matchesTag tag) children := by
  have hmatches : ∀ child ∈ children,
      child.matchesTag tag = decide (child.basicCategory = tag) := by
    intro child hchild
    rw [Bool.eq_iff_iff, decide_eq_true_eq, Tree.matchesTag_iff h, hinner child hchild]
    exact and_iff_right rfl
  obtain ⟨edge, selection⟩ := direction
  cases selection with
  | ranked =>
      rw [choose?, List.findSome?_singleton]
      apply Edge.search_congr
      exact List.map_congr_left fun child hchild => by
        simp [hmatches child hchild, beq_eq_decide]
  | listed =>
      apply Edge.search_congr
      exact List.map_congr_left fun child hchild => by simp [hmatches child hchild]
  | unlisted =>
      apply Edge.search_congr
      exact List.map_congr_left fun child hchild => by simp [hmatches child hchild]

-- Tag, pattern and head rule see the same category of an inner node.
theorem Tree.matchesTag_iff_basicCategory (h : IsPlainTag tag) (label : String) (kids : List Tree) :
    let t : Tree := .node label kids
    (t.matchesTag tag = true ↔ t.basicCategory = tag) ∧
      (∀ context, (Pattern.Item.atom (.tag tag)).holds context t =
        .ok (decide (t.basicCategory = tag))) ∧
      ∀ direction children, (∀ child ∈ children, child.isLeaf = false) →
        (⟨direction, [tag]⟩ : Directive).choose? children =
          direction.edge.search
            (fun child => if direction.selection = .unlisted then !child.matchesTag tag
              else child.matchesTag tag) children := by
  intro t
  have hcategory : t.matchesTag tag = true ↔ t.basicCategory = tag :=
    (Tree.matchesTag_iff h).trans (and_iff_right rfl)
  refine ⟨hcategory, fun context => ?_, fun direction children hinner =>
    Directive.choose?_tagged h hinner direction⟩
  have hholds : (Pattern.Item.atom (.tag tag)).holds context t = .ok (t.matchesTag tag) := rfl
  rw [hholds, Except.ok.injEq, Bool.eq_iff_iff, decide_eq_true_eq, hcategory]

theorem Tree.matchesTag_iff_basicCategory_gap :
    let t : Tree := .node "NP=2-SBJ" [.node "PRP" [.leaf "It"]]
    let children : List Tree := [.node "ADVP" [.node "RB" [.leaf "So"]], t]
    IsPlainTag "NP" ∧ (∀ child ∈ children, child.isLeaf = false) ∧ t.basicCategory = "NP" ∧
      t.matchesTag "NP" = true ∧
      (∀ context, (Pattern.Item.atom (.tag "NP")).holds context t = .ok true) ∧
      (Directive.left ["NP"]).choose? children = some 1 := by
  intro t children
  have hplain : IsPlainTag "NP" := by decide
  have hinner : ∀ child ∈ children, child.isLeaf = false := by
    simp [children, t, Tree.isLeaf]
  have hcategory : t.basicCategory = "NP" := by decide +kernel
  obtain ⟨htag, hpattern, hrule⟩ :=
    Tree.matchesTag_iff_basicCategory hplain "NP=2-SBJ" [.node "PRP" [.leaf "It"]]
  refine ⟨hplain, hinner, hcategory, htag.mpr hcategory, fun context => ?_, ?_⟩
  · rw [hpattern context]
    exact congrArg Except.ok (decide_eq_true hcategory)
  · exact (hrule ⟨.left, .ranked⟩ children hinner).trans (by decide +kernel)

end Rules

end HeadPercolation
