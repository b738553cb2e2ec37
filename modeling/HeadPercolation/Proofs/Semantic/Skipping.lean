import HeadPercolation.Proofs.Semantic.Conjuncts

namespace HeadPercolation.SemanticFinder

variable {f : SemanticFinder} {interjections : Bool} {t : Tree}

theorem passesOver_iff {category : String} :
    f.passesOver interjections category t = true ↔
      (t.isPreterminal = true ∧ f.punctuationTags.contains category = true) ∨
        interjections = false ∧
          ((t.isPreterminal = true ∧ category = "UH") ∨ category = "INTJ") := by
  cases interjections <;> simp [passesOver, and_or_left, or_assoc]

-- Where no tag of punctuation is annotated, a label that is passed over is its own category.
theorem basicCategory_of_passesOver
    (htags : ∀ tag ∈ f.punctuationTags.words, basicCategory tag = tag)
    (h : f.passesOver interjections t.label t = true) : t.basicCategory = t.label := by
  rcases passesOver_iff.mp h with ⟨-, htag⟩ | ⟨-, ⟨-, huh⟩ | hintj⟩
  · exact htags t.label (List.contains_iff_mem.mp htag)
  · have hplain : basicCategory "UH" = "UH" := by decide
    rw [Tree.basicCategory, huh, hplain]
  · have hplain : basicCategory "INTJ" = "INTJ" := by decide
    rw [Tree.basicCategory, hintj, hplain]

section Landing

variable {children : List Tree} {index place : Nat}

-- What a head can be moved to: no punctuation and, unless interjections are conjoined, no
-- interjection.
structure CanBeConjunct (tags : WordSet) (interjections : Bool) (t : Tree) : Prop where
  notPunctuation : ¬IsPunctuation tags t
  notInterjection : interjections = false →
    ¬(t.isPreterminal = true ∧ t.label = "UH") ∧ t.label ≠ "INTJ"

theorem canBeConjunct_of_passesOver_eq_false
    (h : f.passesOver interjections t.label t = false) :
    CanBeConjunct f.punctuationTags interjections t := by
  have hstays : ¬f.passesOver interjections t.label t = true := Bool.not_eq_true _ ▸ h
  rw [passesOver_iff, not_or] at hstays
  obtain ⟨hpunctuation, hinterjection⟩ := hstays
  exact ⟨hpunctuation, fun hi => not_or.mp fun hspoken => hinterjection ⟨hi, hspoken⟩⟩

-- What ends the search for the conjunct before is not passed over by its category.
theorem passesOver_of_conjunctBefore {seen : Bool} {count : Nat}
    (h : f.conjunctBefore interjections children seen count = some place) :
    ∃ kid, children[place]? = some kid ∧
      f.passesOver interjections kid.basicCategory kid = false := by
  induction count generalizing seen with
  | zero => cases h
  | succ count ih =>
      cases hkid : children[count]? with
      | none => simp [conjunctBefore, hkid] at h
      | some kid =>
          rw [conjunctBefore_succ hkid] at h
          split at h
          · exact ih h
          · split at h
            · exact ih h
            · rename_i hstays
              split at h
              · cases h
                exact ⟨kid, hkid, Bool.eq_false_of_not_eq_true hstays⟩
              · cases h

-- The head is moved to a child that one of the two tests does not pass over: the test of labels
-- on the way to the nearest conjunct, the test of categories on the way from there.
theorem coordinated?_stays (h : f.coordinated? index children = some place) :
    let interjections := children[index]?.any (·.basicCategory == "UH")
    ∃ kid, children[place]? = some kid ∧
      (f.passesOver interjections kid.label kid = false ∨
        f.passesOver interjections kid.basicCategory kid = false) := by
  intro interjections
  unfold coordinated? at h
  split at h
  · cases h
  · obtain ⟨start, hstart, rfl⟩ := Option.map_eq_some_iff.mp h
    rcases f.firstConjunct_cases interjections children start with hsame | ⟨before, hbefore⟩
    · obtain ⟨⟨kid, hkid, hstays⟩, -⟩ := Edge.search_eq_some_iff.mp hstart
      have hget : children[start]? = some kid := by
        have hlt := (Edge.search_eq_some_iff.mp hstart).lt
        rw [List.length_take] at hlt
        rwa [List.getElem?_take_of_lt (by omega)] at hkid
      rw [hsame]
      exact ⟨kid, hget, Or.inl (by simpa using hstays)⟩
    · obtain ⟨kid, hkid, hstays⟩ := passesOver_of_conjunctBefore hbefore
      exact ⟨kid, hkid, Or.inr hstays⟩

-- A head stays where it is, or a coordinator stands right before it and it is moved to the left
-- of that, to what can be a conjunct.
theorem adjust_lands (htags : f.punctuationTags = Config.Packaged.punctuationTags)
    (hindex : index < children.length) :
    f.adjust index children = index ∨
      ∃ coordinator target, f.adjust index children + 2 ≤ index ∧
        children[index - 1]? = some coordinator ∧ isCoordinator coordinator = true ∧
          children[f.adjust index children]? = some target ∧
            CanBeConjunct f.punctuationTags (children[index].basicCategory == "UH") target := by
  cases hmoved : f.coordinated? index children with
  | none => exact Or.inl (by rw [adjust, hmoved, Option.getD_none])
  | some place =>
      right
      obtain ⟨coordinator, hcoordinator, hcoordinates⟩ := coordinated?_isCoordinator hmoved
      obtain ⟨target, htarget, hstays⟩ := coordinated?_stays hmoved
      rw [List.getElem?_eq_getElem hindex, Option.any_some] at hstays
      have hplain : ∀ tag ∈ f.punctuationTags.words, basicCategory tag = tag :=
        htags ▸ Config.Packaged.basicCategory_of_mem_punctuationTags
      rw [adjust, hmoved, Option.getD_some]
      refine ⟨coordinator, target, coordinated?_lt hmoved, hcoordinator, hcoordinates, htarget, ?_⟩
      apply canBeConjunct_of_passesOver_eq_false
      rcases hstays with hlabel | hcategory
      · exact hlabel
      · -- a label that was passed over would be the category that was not
        by_contra hpasses
        rw [Bool.not_eq_false] at hpasses
        rw [basicCategory_of_passesOver hplain hpasses, hpasses] at hcategory
        cases hcategory

-- In `oh , a , (quotation mark) b and c` the head is moved from `c` to `b` and from there to `a`,
-- but not to the interjection.
theorem adjust_lands_quoted :
    let word (tag text : String) : Tree := .node tag [.leaf text]
    let children := [word "UH" "oh", word "," ",", word "NN" "a", word "," ",", word "``" "``",
      word "NN" "b", word "CC" "and", word "NN" "c"]
    ∃ f, ofTables Config.Packaged.tables none = .ok f ∧
      f.punctuationTags = Config.Packaged.punctuationTags ∧ 7 < children.length ∧
        f.adjust 7 children = 2 ∧
          ∃ coordinator target, children[6]? = some coordinator ∧
            isCoordinator coordinator = true ∧ children[2]? = some target ∧
              CanBeConjunct f.punctuationTags (children[7].basicCategory == "UH") target := by
  intro word children
  have hrun : ((ofTables Config.Packaged.tables none).map (·.adjust 7 children)).toOption =
      some 2 := by
    decide +kernel
  obtain ⟨f, hf, hmoved⟩ := map_eq_ok.mp (toOption_eq_some.mp hrun)
  have htags : f.punctuationTags = Config.Packaged.punctuationTags :=
    congrArg punctuationTags (ofTables_words hf)
  have hindex : 7 < children.length := by decide
  refine ⟨f, hf, htags, hindex, hmoved, ?_⟩
  rcases adjust_lands htags hindex with hsame | ⟨coordinator, target, -, hlanding⟩
  · omega
  · rw [hmoved] at hlanding
    exact ⟨coordinator, target, hlanding⟩

end Landing

section Annotations

-- Two nodes with the same category that both are preterminals or both are not. Their words, what
-- they contain and the annotations on their labels may differ.
def Alike (s t : Tree) : Prop :=
  s.basicCategory = t.basicCategory ∧ s.isPreterminal = t.isPreterminal

instance (s t : Tree) : Decidable (Alike s t) :=
  inferInstanceAs (Decidable (_ ∧ _))

-- The two tests of what may be passed over, by its label and by its category, disagree on the node.
def IsDisputed (f : SemanticFinder) (interjections : Bool) (t : Tree) : Prop :=
  f.passesOver interjections t.label t ≠ f.passesOver interjections t.basicCategory t

theorem IsDisputed.label_ne (h : f.IsDisputed interjections t) : t.label ≠ t.basicCategory := by
  intro hplain
  rw [IsDisputed, ← hplain] at h
  exact h rfl

variable {xs ys : List Tree}

theorem getElem?_alike (h : List.Forall₂ Alike xs ys) (place : Nat) :
    (xs[place]? = none ∧ ys[place]? = none) ∨
      ∃ s t, xs[place]? = some s ∧ ys[place]? = some t ∧ Alike s t := by
  induction h generalizing place with
  | nil => exact Or.inl ⟨rfl, rfl⟩
  | @cons s t xs ys hst _ ih =>
      cases place with
      | zero => exact Or.inr ⟨s, t, rfl, rfl, hst⟩
      | succ place => exact ih place

theorem Alike.isSeparator {s t : Tree} (h : Alike s t) : isSeparator s = isSeparator t := by
  rw [SemanticFinder.isSeparator, h.1, ← SemanticFinder.isSeparator]

theorem Alike.isCoordinator {s t : Tree} (h : Alike s t) : isCoordinator s = isCoordinator t := by
  rw [SemanticFinder.isCoordinator, h.1, ← SemanticFinder.isCoordinator]

theorem Alike.passesOver {s t : Tree} (h : Alike s t) :
    f.passesOver interjections s.basicCategory s = f.passesOver interjections t.basicCategory t := by
  rw [SemanticFinder.passesOver, h.1, h.2, ← SemanticFinder.passesOver]

theorem conjunctBefore_alike (h : List.Forall₂ Alike xs ys) (seen : Bool) (count : Nat) :
    f.conjunctBefore interjections xs seen count = f.conjunctBefore interjections ys seen count := by
  induction count generalizing seen with
  | zero => rfl
  | succ count ih =>
      rcases getElem?_alike h count with ⟨hx, hy⟩ | ⟨s, t, hx, hy, hst⟩
      · simp only [conjunctBefore, hx, hy]
      · rw [conjunctBefore_succ hx, conjunctBefore_succ hy, hst.isSeparator, hst.passesOver, ih, ih]

-- Once a conjunct is found, annotations do not matter on the way from there.
theorem firstConjunct_alike (h : List.Forall₂ Alike xs ys) (index : Nat) :
    f.firstConjunct interjections xs index = f.firstConjunct interjections ys index :=
  firstConjunct_congr (conjunctBefore_alike h false) index

theorem any_alike (h : List.Forall₂ Alike xs ys) {p : Tree → Bool}
    (hp : ∀ s t, Alike s t → p s = p t) (place : Nat) : xs[place]?.any p = ys[place]?.any p := by
  rcases getElem?_alike h place with ⟨hx, hy⟩ | ⟨s, t, hx, hy, hst⟩
  · rw [hx, hy]
  · rw [hx, hy, Option.any_some, Option.any_some, hp s t hst]

-- To the left of the coordinator the labels count, but only where they decide what is passed over.
theorem coordinated?_alike (h : List.Forall₂ Alike xs ys) {index : Nat}
    (hinterjections : xs[index]?.any (·.basicCategory == "UH") = interjections)
    (hlabels : ∀ place s t, place + 1 < index → xs[place]? = some s → ys[place]? = some t →
      f.passesOver interjections s.label s = f.passesOver interjections t.label t) :
    f.coordinated? index xs = f.coordinated? index ys := by
  have hinterjections' : ys[index]?.any (·.basicCategory == "UH") = interjections := by
    rw [← hinterjections, any_alike h fun s t hst => by rw [hst.1]]
  have hcoordinator : xs[index - 1]?.any SemanticFinder.isCoordinator =
      ys[index - 1]?.any SemanticFinder.isCoordinator :=
    any_alike h (fun _ _ hst => hst.isCoordinator) (index - 1)
  have hbefore : (xs.take (index - 1)).map (fun kid => !f.passesOver interjections kid.label kid) =
      (ys.take (index - 1)).map (fun kid => !f.passesOver interjections kid.label kid) := by
    apply List.ext_getElem?
    intro place
    rw [List.getElem?_map, List.getElem?_map]
    by_cases hplace : place < index - 1
    · rw [List.getElem?_take_of_lt hplace, List.getElem?_take_of_lt hplace]
      rcases getElem?_alike h place with ⟨hx, hy⟩ | ⟨s, t, hx, hy, -⟩
      · rw [hx, hy]
      · rw [hx, hy, Option.map_some, Option.map_some, hlabels place s t (by omega) hx hy]
    · rw [List.getElem?_take_eq_none (by omega), List.getElem?_take_eq_none (by omega)]
  have hfirst : f.firstConjunct interjections xs = f.firstConjunct interjections ys :=
    funext (firstConjunct_alike h)
  unfold coordinated?
  simp only [hcoordinator, hinterjections, hinterjections', Edge.search_congr hbefore, hfirst]

-- Annotations on the labels matter only where a node to the left of the coordinator has one that
-- keeps the first stretch of the way from passing over it.
theorem adjust_eq_or_isDisputed (h : List.Forall₂ Alike xs ys) (index : Nat) :
    (∀ interjections place, f.firstConjunct interjections xs place =
      f.firstConjunct interjections ys place) ∧
    (f.adjust index xs = f.adjust index ys ∨
      ∃ place t, place + 1 < index ∧ (xs[place]? = some t ∨ ys[place]? = some t) ∧
        t.label ≠ t.basicCategory ∧
          f.IsDisputed (xs[index]?.any (·.basicCategory == "UH")) t) := by
  refine ⟨fun _ => firstConjunct_alike h, ?_⟩
  generalize hinterjections : xs[index]?.any (·.basicCategory == "UH") = interjections
  by_cases hdisputed : ∃ place t, place + 1 < index ∧ (xs[place]? = some t ∨ ys[place]? = some t) ∧
      f.IsDisputed interjections t
  · obtain ⟨place, t, hplace, ht, hdiffer⟩ := hdisputed
    exact Or.inr ⟨place, t, hplace, ht, hdiffer.label_ne, hdiffer⟩
  · left
    have hagrees (place : Nat) (kid : Tree) (hplace : place + 1 < index)
        (hkid : xs[place]? = some kid ∨ ys[place]? = some kid) :
        f.passesOver interjections kid.label kid =
          f.passesOver interjections kid.basicCategory kid := by
      by_contra hdiffer
      exact hdisputed ⟨place, kid, hplace, hkid, hdiffer⟩
    have hlabels : ∀ place s t, place + 1 < index → xs[place]? = some s → ys[place]? = some t →
        f.passesOver interjections s.label s = f.passesOver interjections t.label t := by
      intro place s t hplace hs ht
      rcases getElem?_alike h place with ⟨hnone, -⟩ | ⟨s', t', hs', ht', hst⟩
      · cases hs.symm.trans hnone
      · cases hs.symm.trans hs'
        cases ht.symm.trans ht'
        rw [hagrees place s hplace (Or.inl hs), hst.passesOver,
          hagrees place t hplace (Or.inr ht)]
    rw [adjust, adjust, coordinated?_alike h hinterjections hlabels]

-- The conjuncts of `a , b and c`, all with annotations, which change nothing.
theorem adjust_eq_or_isDisputed_annotated :
    let word (tag text : String) : Tree := .node tag [.leaf text]
    let xs := [word "NN-1" "a", word ",-1" ",", word "NN-2" "b", word "CC-3" "and", word "NN" "c"]
    let ys := [word "NN" "a", word "," ",", word "NN" "b", word "CC" "and", word "NN" "c"]
    ∃ f, ofTables Config.Packaged.tables none = .ok f ∧ List.Forall₂ Alike xs ys ∧
      f.adjust 4 xs = 0 ∧
        (∀ interjections place, f.firstConjunct interjections xs place =
          f.firstConjunct interjections ys place) ∧
        (f.adjust 4 xs = f.adjust 4 ys ∨
          ∃ place t, place + 1 < 4 ∧ (xs[place]? = some t ∨ ys[place]? = some t) ∧
            t.label ≠ t.basicCategory ∧
              f.IsDisputed (xs[4]?.any (·.basicCategory == "UH")) t) := by
  intro word xs ys
  have halike : List.Forall₂ Alike xs ys := by decide +kernel
  have hrun : ((ofTables Config.Packaged.tables none).map (·.adjust 4 xs)).toOption = some 0 := by
    decide +kernel
  obtain ⟨f, hf, hmoved⟩ := map_eq_ok.mp (toOption_eq_some.mp hrun)
  exact ⟨f, hf, halike, hmoved, adjust_eq_or_isDisputed halike 4⟩

-- In `a oh and b` the head is moved to `a` if the interjection is an INTJ, but to the interjection
-- if that is an INTJ-1.
theorem adjust_isDisputed :
    let word (tag text : String) : Tree := .node tag [.leaf text]
    let children (label : String) :=
      [word "NN" "a", .node label [word "UH" "oh"], word "CC" "and", word "NN" "b"]
    ∃ f, ofTables Config.Packaged.tables none = .ok f ∧
      List.Forall₂ Alike (children "INTJ-1") (children "INTJ") ∧
        f.adjust 3 (children "INTJ-1") = 1 ∧ f.adjust 3 (children "INTJ") = 0 := by
  intro word children
  have hrun : ((ofTables Config.Packaged.tables none).map fun f =>
      (f.adjust 3 (children "INTJ-1"), f.adjust 3 (children "INTJ"))).toOption = some (1, 0) := by
    decide +kernel
  obtain ⟨f, hf, hmoved⟩ := map_eq_ok.mp (toOption_eq_some.mp hrun)
  obtain ⟨hannotated, hplain⟩ := Prod.mk.inj hmoved
  exact ⟨f, hf, by decide +kernel, hannotated, hplain⟩

end Annotations

end HeadPercolation.SemanticFinder
