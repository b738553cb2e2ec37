import HeadPercolation.Config.Packaged.Settings
import HeadPercolation.Proofs.Results
import HeadPercolation.Proofs.Semantic.Rules
import HeadPercolation.Semantic.Verbs

namespace HeadPercolation

def IsParticiple (t : Tree) : Prop :=
  t.isPreterminal = true ∧ t.label ∈ participleTags

-- A coordinator is among the nodes, with no phrase before it.
def MeetsCoordinator (ts : List Tree) : Prop :=
  ∃ between coordinator after, ts = between ++ coordinator :: after ∧
    (∀ t ∈ between, t.isPhrasal = false) ∧
      coordinator.isPreterminal = true ∧ coordinator.label = "CC"

-- A phrase with a participle and a coordinator are among the nodes, with no other phrase between
-- the two.
def CoordinatesParticiple (ts : List Tree) : Prop :=
  ∃ before phrase rest, ts = before ++ phrase :: rest ∧ phrase.isPhrasal = true ∧
    containsParticiple phrase = true ∧ MeetsCoordinator rest

variable {t : Tree} {ts : List Tree}

theorem Tree.isPhrasal_of_isPreterminal (h : t.isPreterminal = true) : t.isPhrasal = false := by
  simp [isPhrasal, h]

-- A node with a phrase below it is a phrase.
theorem Tree.isPhrasal_of_mem {kid : Tree} (hmem : kid ∈ t.children)
    (hkid : kid.isPhrasal = true) : t.isPhrasal = true := by
  have hne : t.children ≠ [] := List.ne_nil_of_mem hmem
  have hinner : t.isPreterminal = false := by
    by_contra hpreterminal
    unfold isPreterminal at hpreterminal
    split at hpreterminal
    · rw [children, List.mem_singleton] at hmem
      rw [hmem] at hkid
      cases hkid
    · exact hpreterminal rfl
  simp [isPhrasal, hinner, hne]

theorem meetsCoordinator_cons :
    MeetsCoordinator (t :: ts) ↔
      (t.isPreterminal = true ∧ t.label = "CC") ∨ (t.isPhrasal = false ∧ MeetsCoordinator ts) := by
  constructor
  · rintro ⟨between, coordinator, after, heq, hbetween, hcoordinator⟩
    cases between with
    | nil =>
        obtain ⟨rfl, -⟩ := List.cons.inj heq
        exact Or.inl hcoordinator
    | cons s between =>
        obtain ⟨rfl, rfl⟩ := List.cons.inj heq
        obtain ⟨hs, hbetween⟩ := List.forall_mem_cons.mp hbetween
        exact Or.inr ⟨hs, between, coordinator, after, rfl, hbetween, hcoordinator⟩
  · rintro (hcoordinator | ⟨ht, between, coordinator, after, rfl, hbetween, hcoordinator⟩)
    · exact ⟨[], t, ts, rfl, by simp, hcoordinator⟩
    · exact ⟨t :: between, coordinator, after, rfl, List.forall_mem_cons.mpr ⟨ht, hbetween⟩,
        hcoordinator⟩

theorem coordinatesParticiple_cons :
    CoordinatesParticiple (t :: ts) ↔
      (t.isPhrasal = true ∧ containsParticiple t = true ∧ MeetsCoordinator ts) ∨
        CoordinatesParticiple ts := by
  constructor
  · rintro ⟨before, phrase, rest, heq, hphrase⟩
    cases before with
    | nil =>
        obtain ⟨rfl, rfl⟩ := List.cons.inj heq
        exact Or.inl hphrase
    | cons s before =>
        obtain ⟨rfl, rfl⟩ := List.cons.inj heq
        exact Or.inr ⟨before, phrase, rest, rfl, hphrase⟩
  · rintro (hphrase | ⟨before, phrase, rest, rfl, hphrase⟩)
    · exact ⟨[], t, ts, rfl, hphrase⟩
    · exact ⟨t :: before, phrase, rest, rfl, hphrase⟩

-- The flag says whether the last phrase read has a participle. It is set and reset by phrases
-- alone, so a coordinator counts for the last phrase before it.
theorem showsParticiple_iff (seen : Bool) :
    showsParticiple true seen ts = true ↔
      (∃ kid ∈ ts, IsParticiple kid) ∨ (seen = true ∧ MeetsCoordinator ts) ∨
        CoordinatesParticiple ts := by
  induction ts generalizing seen with
  | nil => simp [showsParticiple, MeetsCoordinator, CoordinatesParticiple]
  | cons t ts ih =>
      rw [meetsCoordinator_cons, coordinatesParticiple_cons, List.exists_mem_cons_iff]
      cases hpreterminal : t.isPreterminal with
      | true =>
          have hphrasal := Tree.isPhrasal_of_isPreterminal hpreterminal
          have hread : showsParticiple true seen (t :: ts) =
              (participleTags.contains t.label || (t.label == "CC" && seen) ||
                showsParticiple true seen ts) := by
            rw [showsParticiple, if_pos hpreterminal]
            cases participleTags.contains t.label || (t.label == "CC" && seen) <;> rfl
          simp only [hread, Bool.or_eq_true, Bool.and_eq_true, beq_iff_eq,
            List.contains_iff_mem, ih, IsParticiple, hpreterminal, hphrasal, true_and,
            Bool.false_eq_true, false_and, false_or]
          grind
      | false =>
          cases hphrasal : t.isPhrasal with
          | true =>
              have hread : showsParticiple true seen (t :: ts) =
                  showsParticiple true (containsParticiple t) ts := by
                simp [showsParticiple, hpreterminal, hphrasal]
              simp only [hread, ih, IsParticiple, hpreterminal, true_and, Bool.false_eq_true,
                Bool.true_eq_false, false_and, false_or, and_false]
          | false =>
              have hread : showsParticiple true seen (t :: ts) = showsParticiple true seen ts := by
                simp [showsParticiple, hpreterminal, hphrasal]
              rw [hread, ih]
              simp [IsParticiple, hpreterminal]

-- Under any other label no phrase is looked into.
theorem showsParticiple_of_not_plain :
    showsParticiple false false ts = true ↔ ∃ kid ∈ ts, IsParticiple kid := by
  induction ts with
  | nil => simp [showsParticiple]
  | cons t ts ih =>
      cases hpreterminal : t.isPreterminal <;>
        simp [showsParticiple, hpreterminal, ih, IsParticiple]

theorem isParticipleVP_iff :
    isParticipleVP t = true ↔
      t.isPhrasal = true ∧ Text.startsWith "VP" t.label = true ∧
        ((∃ kid ∈ t.children, IsParticiple kid) ∨
          (t.label = "VP" ∧ CoordinatesParticiple t.children)) := by
  by_cases hplain : t.label = "VP"
  · simp [isParticipleVP, hplain, showsParticiple_iff, and_assoc]
  · have hlabel : (t.label == "VP") = false := beq_eq_false_iff_ne.mpr hplain
    simp [isParticipleVP, hplain, hlabel, showsParticiple_of_not_plain, and_assoc]

namespace SemanticFinder

variable {f : SemanticFinder} {children : List Tree}

-- The reading stops early, but never before all that it asks for has been seen.
theorem showsPassive_eq (auxiliary participle : Bool) :
    f.showsPassive auxiliary participle children =
      ((auxiliary || children.any f.isPassiveAuxiliary) &&
        (participle || children.any isParticipleVP)) := by
  induction children generalizing auxiliary participle with
  | nil => simp [showsPassive]
  | cons kid kids ih =>
      rw [showsPassive]
      simp only [ih, List.any_cons, Bool.or_assoc]
      cases auxiliary <;> cases participle <;> cases f.isPassiveAuxiliary kid <;>
        cases isParticipleVP kid <;> simp

theorem hasPassive_iff :
    f.hasPassive children = true ↔
      (∃ kid ∈ children, f.isPassiveAuxiliary kid = true) ∧
        ∃ kid ∈ children, isParticipleVP kid = true := by
  simp [hasPassive, showsPassive_eq]

-- Children that make a passive still do so among others.
theorem hasPassive_of_subset {others : List Tree} (h : children ⊆ others)
    (hpassive : f.hasPassive children = true) : f.hasPassive others = true := by
  obtain ⟨⟨auxiliary, hmem, hauxiliary⟩, phrase, hphrase, hverbal⟩ := hasPassive_iff.mp hpassive
  exact hasPassive_iff.mpr ⟨⟨auxiliary, h hmem, hauxiliary⟩, phrase, h hphrase, hverbal⟩

-- Two of the children decide, whatever their order and whatever else is read before, between or
-- after them.
theorem hasPassive_iff_pair :
    (f.hasPassive children = true ↔
      ∃ auxiliary ∈ children, ∃ phrase ∈ children, f.isPassiveAuxiliary auxiliary = true ∧
        phrase.isPhrasal = true ∧ Text.startsWith "VP" phrase.label = true ∧
          f.hasPassive [auxiliary, phrase] = true) ∧
    (∀ others, children.Perm others → f.hasPassive others = f.hasPassive children) ∧
    ∀ others, children ⊆ others → f.hasPassive children = true → f.hasPassive others = true := by
  refine ⟨⟨fun h => ?_, ?_⟩, fun others hperm => ?_, fun others => hasPassive_of_subset⟩
  · obtain ⟨⟨auxiliary, hmem, hauxiliary⟩, phrase, hphrase, hverbal⟩ := hasPassive_iff.mp h
    obtain ⟨hphrasal, hlabel, -⟩ := isParticipleVP_iff.mp hverbal
    have hpair : f.hasPassive [auxiliary, phrase] = true :=
      hasPassive_iff.mpr ⟨⟨auxiliary, by simp, hauxiliary⟩, phrase, by simp, hverbal⟩
    exact ⟨auxiliary, hmem, phrase, hphrase, hauxiliary, hphrasal, hlabel, hpair⟩
  · rintro ⟨auxiliary, hmem, phrase, hphrase, -, -, -, hpair⟩
    have hsubset : [auxiliary, phrase] ⊆ children :=
      List.cons_subset.mpr ⟨hmem, List.cons_subset.mpr ⟨hphrase, List.nil_subset children⟩⟩
    exact hasPassive_of_subset hsubset hpair
  · rw [Bool.eq_iff_iff]
    exact ⟨hasPassive_of_subset hperm.symm.subset, hasPassive_of_subset hperm.subset⟩

-- A participle phrase, an adverb and the auxiliary, the same the other way round, and with a second
-- phrase before them.
theorem hasPassive_iff_pair_inverted :
    let word (tag text : String) : Tree := .node tag [.leaf text]
    let phrase : Tree := .node "VP" [word "VBN" "hit"]
    let children := [phrase, word "RB" "often", word "VBD" "was"]
    ∃ f, ofTables Config.Packaged.tables none = .ok f ∧ f.hasPassive children = true ∧
      children.Perm children.reverse ∧ children ⊆ phrase :: children ∧
        (∃ auxiliary ∈ children, ∃ phrase ∈ children, f.isPassiveAuxiliary auxiliary = true ∧
          phrase.isPhrasal = true ∧ Text.startsWith "VP" phrase.label = true ∧
            f.hasPassive [auxiliary, phrase] = true) ∧
          f.hasPassive children.reverse = f.hasPassive children ∧
            f.hasPassive (phrase :: children) = true := by
  intro word phrase children
  have hrun : ((ofTables Config.Packaged.tables none).map (·.hasPassive children)).toOption =
      some true := by
    decide +kernel
  obtain ⟨f, hf, hpassive⟩ := map_eq_ok.mp (toOption_eq_some.mp hrun)
  obtain ⟨hpair, hperm, hmore⟩ := @hasPassive_iff_pair f children
  have hturned : children.Perm children.reverse := children.reverse_perm.symm
  have hadded : children ⊆ phrase :: children := List.subset_cons_self phrase children
  exact ⟨f, hf, hpassive, hturned, hadded, hpair.mp hpassive, hperm _ hturned,
    hmore _ hadded hpassive⟩

-- A passive auxiliary and, to either side of it, a VP in which a phrase with a participle is
-- coordinated make a passive. Other children do not matter, nor do words between the two.
theorem hasPassive_of_coordinatesParticiple {auxiliary phrase : Tree}
    (hmem : auxiliary ∈ children) (hauxiliary : f.isPassiveAuxiliary auxiliary = true)
    (hphrase : phrase ∈ children) (hlabel : phrase.label = "VP")
    (hcoordinates : CoordinatesParticiple phrase.children) : f.hasPassive children = true := by
  have hphrasal : phrase.isPhrasal = true := by
    obtain ⟨before, participle, rest, heq, hparticiple, -⟩ := hcoordinates
    have hkid : participle ∈ phrase.children := by
      rw [heq]
      exact List.mem_append_right before List.mem_cons_self
    exact Tree.isPhrasal_of_mem hkid hparticiple
  have hverbal : isParticipleVP phrase = true :=
    isParticipleVP_iff.mpr ⟨hphrasal, by rw [hlabel]; decide, Or.inr ⟨hlabel, hcoordinates⟩⟩
  exact hasPassive_iff.mpr ⟨⟨auxiliary, hmem, hauxiliary⟩, phrase, hphrase, hverbal⟩

-- Adverbs and a comma between the conjuncts, in `was hit , also and killed`.
theorem hasPassive_of_coordinatesParticiple_words :
    let word (tag text : String) : Tree := .node tag [.leaf text]
    let auxiliary := word "VBD" "was"
    let phrase : Tree := .node "VP" [.node "VP" [word "VBN" "hit"], word "," ",",
      word "RB" "also", word "CC" "and", .node "VP" [word "VBN" "killed"]]
    ∃ f, ofTables Config.Packaged.tables none = .ok f ∧ f.isPassiveAuxiliary auxiliary = true ∧
      phrase.label = "VP" ∧ CoordinatesParticiple phrase.children ∧
        f.hasPassive [phrase, word "RB" "often", auxiliary] = true := by
  intro word auxiliary phrase
  have hrun : ((ofTables Config.Packaged.tables none).map
      (·.isPassiveAuxiliary auxiliary)).toOption = some true := by
    decide +kernel
  obtain ⟨f, hf, hauxiliary⟩ := map_eq_ok.mp (toOption_eq_some.mp hrun)
  have hcoordinates : CoordinatesParticiple phrase.children :=
    ⟨[], _, _, rfl, by decide, by decide, [_, _], _, _, rfl, by decide, by decide, rfl⟩
  exact ⟨f, hf, hauxiliary, rfl, hcoordinates,
    hasPassive_of_coordinatesParticiple (by simp) hauxiliary (by simp) rfl hcoordinates⟩

-- A conjunction phrase and a parenthesis are no coordinators, and an adverb phrase before `and`
-- hides the participle.
theorem hasPassive_eq_false_of_phrases :
    let word (tag text : String) : Tree := .node tag [.leaf text]
    let auxiliary := word "VBD" "was"
    let participle : Tree := .node "VP" [word "VBN" "hit"]
    let phrase (between : List Tree) : Tree :=
      .node "VP" (participle :: between ++ [.node "VP" [word "VBN" "killed"]])
    let conjunction : Tree := .node "CONJP" [word "RB" "as", word "RB" "well", word "IN" "as"]
    let parenthesis : Tree := .node "PRN" [word "," ",", word "RB" "indeed", word "," ","]
    let adverb : Tree := .node "ADVP" [word "RB" "very", word "RB" "hard"]
    ∃ f, ofTables Config.Packaged.tables none = .ok f ∧ f.isPassiveAuxiliary auxiliary = true ∧
      participle.isPhrasal = true ∧ containsParticiple participle = true ∧
        ∀ between ∈ [[conjunction], [parenthesis], [adverb, word "CC" "and"]],
          f.hasPassive [auxiliary, phrase between] = false := by
  intro word auxiliary participle phrase conjunction parenthesis adverb
  have hrun : ((ofTables Config.Packaged.tables none).map fun f =>
      (f.isPassiveAuxiliary auxiliary,
        [[conjunction], [parenthesis], [adverb, word "CC" "and"]].all fun between =>
          !f.hasPassive [auxiliary, phrase between])).toOption = some (true, true) := by
    decide +kernel
  obtain ⟨f, hf, hanswers⟩ := map_eq_ok.mp (toOption_eq_some.mp hrun)
  obtain ⟨hauxiliary, hnone⟩ := Prod.mk.inj hanswers
  refine ⟨f, hf, hauxiliary, by decide, by decide, fun between hbetween => ?_⟩
  simpa using List.all_eq_true.mp hnone between hbetween

end SemanticFinder

end HeadPercolation
