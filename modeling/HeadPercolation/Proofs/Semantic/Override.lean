import HeadPercolation.Config.Packaged.Settings
import HeadPercolation.Proofs.Semantic.Coordination
import HeadPercolation.Proofs.Semantic.Rules
import HeadPercolation.Semantic.Override

namespace HeadPercolation

-- The categories of a main verb phrase, and of what a copula links to its subject.
def mainCategories : List String :=
  ["VP", "ADJP", "NP", "WHADJP", "WHNP"]

-- The children that a rule of the override searches, with their places, and its directive: all
-- of them beside an auxiliary, and those that can be complements beside a copula.
inductive Searches (t : Tree) : List (Tree × Nat) → Directive → Prop
  | auxiliary : Searches t t.children.zipIdx mainVerbDirective
  | copula : Searches t (t.children.zipIdx.filter (!isCircumstance ·.1)) (complementDirective t)

namespace SemanticFinder

-- A preterminal with an auxiliary, or with a verbal tag and a form of the passive or of a copula.
def IsFunctionVerb (f : SemanticFinder) (t : Tree) : Prop :=
  f.isAuxiliary t = true ∨ f.isPassiveAuxiliary t = true ∨
    f.isVerbOf Config.Packaged.copularVerbs false t = true

-- A child that a rule of the override picks among those that it searches.
structure Picks (f : SemanticFinder) (t : Tree) (candidates : List (Tree × Nat)) (pick : Nat)
    (kid : Tree) (place : Nat) : Prop where
  hit : ∃ d, Searches t candidates d ∧ d.Hits (candidates.map (·.1)) pick
  found : candidates[pick]? = some (kid, place)
  child : t.children[place]? = some kid
  category : kid.basicCategory ∈ mainCategories
  verb : ¬f.IsFunctionVerb kid

-- Right before the pick stands a coordinator, and the head is moved to the place of the candidate
-- that is the first conjunct.
def MovesTo (f : SemanticFinder) (candidates : List (Tree × Nat)) (pick place : Nat) : Prop :=
  ∃ coordinator first kid, (candidates.map (·.1))[pick - 1]? = some coordinator ∧
    isCoordinator coordinator = true ∧
      f.coordinated? pick (candidates.map (·.1)) = some first ∧
        first + 1 < pick ∧ candidates[first]? = some (kid, place)

end SemanticFinder

variable {t : Tree} {candidates : List (Tree × Nat)} {d : Directive}

theorem Searches.sublist (h : Searches t candidates d) : candidates.Sublist t.children.zipIdx := by
  cases h with
  | auxiliary => exact List.Sublist.refl _
  | copula => exact List.filter_sublist

-- The candidates keep their places.
theorem Searches.getElem?_place (h : Searches t candidates d) {kid : Tree} {place : Nat}
    (hmem : (kid, place) ∈ candidates) : t.children[place]? = some kid :=
  List.mk_mem_zipIdx_iff_getElem?.mp (h.sublist.subset hmem)

theorem Searches.category_mem (h : Searches t candidates d) {pick : Nat}
    (hit : d.Hits (candidates.map (·.1)) pick) {kid : Tree} {place : Nat}
    (hkid : candidates[pick]? = some (kid, place)) : kid.basicCategory ∈ mainCategories := by
  have hselection : d.direction.selection = .ranked := by cases h <;> rfl
  have hcategories : d.categories ⊆ mainCategories := by
    cases h with
    | auxiliary => decide
    | copula => exact List.Subset.refl _
  simp only [Directive.Hits, hselection] at hit
  obtain ⟨before, category, after, hd, -, ⟨s, hs, hcategory⟩, -⟩ := hit
  have hsame : s = kid := by simpa [hkid] using hs.symm
  rw [← hsame, hcategory]
  apply hcategories
  simp [hd]

theorem Config.Packaged.basicCategory_notMem_mainCategories :
    ∀ tag ∈ verbalTags.words ++ unambiguousAuxiliaryTags.words,
      basicCategory tag ∉ mainCategories := by
  decide +kernel

namespace SemanticFinder

variable {f : SemanticFinder} {parent : Option Parent} {i : Nat}

-- The head is located by a rule of the override, the one for auxiliaries or the one for copulas.
theorem verbalHead_eq_ok_some (h : f.verbalHead t parent = .ok (some i)) :
    (f.hasAnyAuxiliary t.children = true ∧ f.besideAuxiliary t.children = .ok (some i)) ∨
      (f.linksComplement t parent = true ∧ f.complement t = .ok (some i)) := by
  unfold verbalHead at h
  cases hauxiliary : f.hasAnyAuxiliary t.children with
  | false =>
      right
      rw [hauxiliary] at h
      cases hlinks : f.linksComplement t parent <;> rw [hlinks] at h
      · cases h
      · exact ⟨rfl, h⟩
  | true =>
      rw [hauxiliary] at h
      obtain ⟨beside, hbeside, h⟩ := bind_eq_ok.mp h
      cases beside with
      | some j =>
          left
          cases h
          exact ⟨rfl, hbeside⟩
      | none =>
          right
          cases hlinks : f.linksComplement t parent <;> rw [hlinks] at h
          · cases h
          · exact ⟨rfl, h⟩

-- The complement is found among the candidates, and is refused if it is the subject of an SQ.
theorem complement_eq_ok_some (h : f.complement t = .ok (some i)) :
    ∃ j kid, f.adjusted.locate ((t.children.zipIdx.filter (!isCircumstance ·.1)).map (·.1))
        (complementDirective t) = .ok (some j) ∧
      (t.children.zipIdx.filter (!isCircumstance ·.1))[j]? = some (kid, i) ∧
        (t.basicCategory = "SQ" → Text.startsWith "NP" kid.label = true →
          hasNounPhraseBefore t.children i = true) := by
  obtain ⟨located, hlocated, h⟩ := bind_eq_ok.mp h
  cases located with
  | none => cases h
  | some j =>
      dsimp only at h
      split at h
      · cases h
      · rename_i kid place hkid
        simp only [pure, Except.pure, Except.ok.injEq, Option.ite_none_left_eq_some] at h
        obtain ⟨hsubject, hplace⟩ := h
        obtain rfl : place = i := Option.some.inj hplace
        refine ⟨j, kid, hlocated, hkid, fun hcategory hlabel => ?_⟩
        simpa [hcategory, hlabel] using hsubject

theorem exists_searches_of_verbalHead (h : f.verbalHead t parent = .ok (some i)) :
    ∃ candidates d j kid, Searches t candidates d ∧
      f.adjusted.locate (candidates.map (·.1)) d = .ok (some j) ∧
        candidates[j]? = some (kid, i) := by
  rcases verbalHead_eq_ok_some h with ⟨-, hbeside⟩ | ⟨-, hcomplement⟩
  · obtain ⟨hlt, -⟩ := HeadFinder.locate_eq_ok_some hbeside
    refine ⟨_, _, i, t.children[i], .auxiliary, ?_, ?_⟩
    · rw [List.zipIdx_map_fst]
      exact hbeside
    · simp [hlt]
  · obtain ⟨j, kid, hlocated, hkid, -⟩ := complement_eq_ok_some hcomplement
    exact ⟨_, _, j, kid, .copula, hlocated, hkid⟩

-- A rule of the override locates its pick, or what the pick is moved to.
theorem picks_of_locate {j place : Nat} {kid : Tree} (hs : Searches t candidates d)
    (hlocated : f.adjusted.locate (candidates.map (·.1)) d = .ok (some j))
    (hkid : candidates[j]? = some (kid, place))
    (hverb : ∀ kid : Tree, kid.basicCategory ∈ mainCategories → ¬f.IsFunctionVerb kid) :
    ∃ pick kid there, f.Picks t candidates pick kid there ∧
      (place = there ∨ f.MovesTo candidates pick place) := by
  obtain ⟨-, pick, hit, hadjust⟩ := HeadFinder.locate_eq_ok_some hlocated
  obtain ⟨⟨picked, there⟩, hpicked⟩ : ∃ c, candidates[pick]? = some c := by
    have hlt := hit.lt
    rw [List.length_map] at hlt
    exact ⟨_, List.getElem?_eq_getElem hlt⟩
  have hcategory := hs.category_mem hit hpicked
  have hpicks : f.Picks t candidates pick picked there :=
    ⟨⟨d, hs, hit⟩, hpicked, hs.getElem?_place (List.mem_of_getElem? hpicked), hcategory,
      hverb picked hcategory⟩
  refine ⟨pick, picked, there, hpicks, ?_⟩
  change f.adjust pick (candidates.map (·.1)) = j at hadjust
  cases hfix : f.coordinated? pick (candidates.map (·.1)) with
  | none =>
      left
      rw [adjust, hfix, Option.getD_none] at hadjust
      rw [← hadjust, hpicked] at hkid
      cases hkid
      rfl
  | some first =>
      right
      rw [adjust, hfix, Option.getD_some] at hadjust
      obtain ⟨coordinator, hcoordinator, hcoordinates⟩ := coordinated?_isCoordinator hfix
      exact ⟨coordinator, first, kid, hcoordinator, hcoordinates, hfix, coordinated?_lt hfix,
        hadjust ▸ hkid⟩

section Packaged

variable {headRules semanticHeadRules : Table (List Directive)} {copulaIsHead : Bool}
  {setting : Option Bool}

theorem not_isFunctionVerb_of_mem_mainCategories
    (h : ofTables { Config.Packaged.tables with headRules, semanticHeadRules, copulaIsHead }
      setting = .ok f)
    {kid : Tree} (hkid : kid.basicCategory ∈ mainCategories) : ¬f.IsFunctionVerb kid := by
  have hverbal : kid.label ∉ f.verbalTags.words := by
    rw [ofTables_words h]
    intro hmem
    exact Config.Packaged.basicCategory_notMem_mainCategories _ (List.mem_append_left _ hmem) hkid
  have hunambiguous : kid.label ∉ f.unambiguousAuxiliaryTags.words := by
    rw [ofTables_words h]
    intro hmem
    exact Config.Packaged.basicCategory_notMem_mainCategories _ (List.mem_append_right _ hmem) hkid
  simp [IsFunctionVerb, isAuxiliary, isPassiveAuxiliary, isVerbOf, WordSet.contains, hverbal,
    hunambiguous]

-- The override itself picks no auxiliary and no copula. One is the head only if it is the first
-- conjunct of a coordination, behind which the pick stands.
theorem verbalHead_picks
    (h : ofTables { Config.Packaged.tables with headRules, semanticHeadRules, copulaIsHead }
      setting = .ok f)
    (hi : f.verbalHead t parent = .ok (some i)) :
    ∃ candidates pick kid place, f.Picks t candidates pick kid place ∧
      (i = place ∨ f.MovesTo candidates pick i) := by
  obtain ⟨candidates, d, j, kid, hs, hlocated, hkid⟩ := exists_searches_of_verbalHead hi
  have hpicks := picks_of_locate hs hlocated hkid fun _ hcategory =>
    not_isFunctionVerb_of_mem_mainCategories h hcategory
  exact ⟨candidates, hpicks⟩

end Packaged

-- In `is hit` the verb phrase is picked and stays the head.
theorem verbalHead_picks_passive :
    let t : Tree := .node "VP" [.node "VBZ" [.leaf "is"], .node "VP" [.node "VBN" [.leaf "hit"]]]
    ∃ f, ofTables Config.Packaged.tables none = .ok f ∧ f.verbalHead t none = .ok (some 1) ∧
      ∃ candidates pick kid place, f.Picks t candidates pick kid place ∧
        (1 = place ∨ f.MovesTo candidates pick 1) := by
  intro t
  have hrun : (ofTables Config.Packaged.tables none >>= (·.verbalHead t none)).toOption =
      some (some 1) := by
    decide +kernel
  obtain ⟨f, hf, hhead⟩ := bind_eq_ok.mp (toOption_eq_some.mp hrun)
  exact ⟨f, hf, hhead, verbalHead_picks hf hhead⟩

-- In a coordination of `is` with a verb phrase the head is moved from the phrase to the verb.
theorem verbalHead_isFunctionVerb :
    let kid : Tree := .node "VBZ" [.leaf "is"]
    let t : Tree := .node "VP" [kid, .node "CC" [.leaf "and"],
      .node "VP" [.node "VBN" [.leaf "hit"]]]
    ∃ f, ofTables Config.Packaged.tables none = .ok f ∧ f.verbalHead t none = .ok (some 0) ∧
      t.children[0]? = some kid ∧ f.isPassiveAuxiliary kid = true := by
  intro kid t
  have hrun : (ofTables Config.Packaged.tables none >>= (·.verbalHead t none)).toOption =
      some (some 0) := by
    decide +kernel
  obtain ⟨f, hf, hhead⟩ := bind_eq_ok.mp (toOption_eq_some.mp hrun)
  have htags : f.verbalTags = Config.Packaged.verbalTags :=
    congrArg verbalTags (ofTables_words hf)
  have hforms : f.passiveAuxiliaries = Config.Packaged.passiveAuxiliaries :=
    congrArg passiveAuxiliaries (ofTables_words hf)
  refine ⟨f, hf, hhead, rfl, ?_⟩
  rw [isPassiveAuxiliary, isVerbOf, htags, hforms, Bool.false_and, Bool.false_or]
  decide +kernel

end SemanticFinder

end HeadPercolation
