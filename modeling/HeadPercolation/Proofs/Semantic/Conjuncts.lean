import HeadPercolation.Config.Packaged.Settings
import HeadPercolation.Proofs.Results
import HeadPercolation.Proofs.Semantic.Coordination
import HeadPercolation.Proofs.Semantic.Totality
import Mathlib.Data.List.Induction
import Mathlib.Logic.Function.Iterate

namespace HeadPercolation

theorem Config.Packaged.basicCategory_of_mem_punctuationTags :
    ∀ tag ∈ punctuationTags.words, HeadPercolation.basicCategory tag = tag := by
  decide +kernel

namespace SemanticFinder

variable {f : SemanticFinder} {interjections : Bool} {children : List Tree}

section Series

-- A conjunct that another one follows, and the punctuation between the two.
structure Conjunct where
  tree : Tree
  punctuation : List Tree

def Conjunct.nodes (c : Conjunct) : List Tree :=
  c.tree :: c.punctuation

def IsPunctuation (tags : WordSet) (t : Tree) : Prop :=
  t.isPreterminal = true ∧ tags.contains t.label = true

instance (tags : WordSet) (t : Tree) : Decidable (IsPunctuation tags t) :=
  inferInstanceAs (Decidable (_ ∧ _))

-- What is a conjunct wherever it stands: no separator, no punctuation and, unless interjections
-- are conjoined, no interjection.
structure IsConjunct (tags : WordSet) (interjections : Bool) (t : Tree) : Prop where
  notSeparator : isSeparator t = false
  notPunctuation : t.isPreterminal = true →
    tags.contains t.label = false ∧ tags.contains t.basicCategory = false
  notInterjection : interjections = false →
    ∀ category ∈ ["INTJ", "UH"], t.label ≠ category ∧ t.basicCategory ≠ category

instance (tags : WordSet) (interjections : Bool) (t : Tree) :
    Decidable (IsConjunct tags interjections t) :=
  decidable_of_iff (_ ∧ _ ∧ _) ⟨fun ⟨h, h', h''⟩ => ⟨h, h', h''⟩, fun ⟨h, h', h''⟩ => ⟨h, h', h''⟩⟩

-- Conjuncts with punctuation behind them, in which a comma or a colon stands behind each but
-- the last.
structure IsSeries (tags : WordSet) (interjections : Bool) (earlier : List Conjunct)
    (last : Conjunct) : Prop where
  conjuncts : ∀ c ∈ earlier ++ [last], IsConjunct tags interjections c.tree
  punctuation : ∀ c ∈ earlier ++ [last], ∀ t ∈ c.punctuation, IsPunctuation tags t
  separated : ∀ c ∈ earlier, ∃ t ∈ c.punctuation, t.label = "," ∨ t.label = ":"

theorem IsPunctuation.passesOver {t : Tree} (h : IsPunctuation f.punctuationTags t)
    (interjections : Bool) : f.passesOver interjections t.label t = true := by
  simp [SemanticFinder.passesOver, h.1, h.2]

theorem IsConjunct.passesOver_eq_false {t : Tree}
    (h : IsConjunct f.punctuationTags interjections t) {category : String}
    (hcategory : category = t.label ∨ category = t.basicCategory) :
    f.passesOver interjections category t = false := by
  have htag : t.isPreterminal = true → f.punctuationTags.contains category = false := by
    intro ht
    rcases hcategory with rfl | rfl
    · exact (h.notPunctuation ht).1
    · exact (h.notPunctuation ht).2
  have hspoken : interjections = false → category ≠ "INTJ" ∧ category ≠ "UH" := by
    intro hi
    have hintj := h.notInterjection hi "INTJ" (by simp)
    have huh := h.notInterjection hi "UH" (by simp)
    rcases hcategory with rfl | rfl
    · exact ⟨hintj.1, huh.1⟩
    · exact ⟨hintj.2, huh.2⟩
  cases ht : t.isPreterminal <;> cases interjections <;>
    simp_all [SemanticFinder.passesOver]

theorem conjunctBefore_succ {kid : Tree} {count : Nat} (h : children[count]? = some kid)
    (seen : Bool) :
    f.conjunctBefore interjections children seen (count + 1) =
      if isSeparator kid then f.conjunctBefore interjections children true count
      else if f.passesOver interjections kid.basicCategory kid then
        f.conjunctBefore interjections children seen count
      else if seen then some count else none := by
  rw [conjunctBefore, h]

-- A run of separators and of nodes that are passed over leaves a mark if a separator is in it.
theorem conjunctBefore_run {before run rest : List Tree} (seen : Bool)
    (hrun : ∀ t ∈ run,
      isSeparator t = true ∨ f.passesOver interjections t.basicCategory t = true) :
    f.conjunctBefore interjections (before ++ run ++ rest) seen (before.length + run.length) =
      f.conjunctBefore interjections (before ++ run ++ rest) (seen || run.any isSeparator)
        before.length := by
  induction run using List.reverseRecOn generalizing seen rest with
  | nil => simp
  | append_singleton run t ih =>
      have hlist : before ++ (run ++ [t]) ++ rest = before ++ run ++ (t :: rest) := by simp
      have hget : (before ++ run ++ t :: rest)[before.length + run.length]? = some t := by
        rw [← List.length_append, List.getElem?_append_right (Nat.le_refl _), Nat.sub_self]
        rfl
      have hbefore := fun u hu => hrun u (List.mem_append_left [t] hu)
      rw [hlist, List.length_append, List.length_singleton, ← Nat.add_assoc,
        conjunctBefore_succ hget]
      cases ht : isSeparator t with
      | true =>
          rw [if_pos rfl, ih true hbefore]
          simp [ht]
      | false =>
          have hpass := (hrun t (by simp)).resolve_left (by simp [ht])
          rw [if_neg (by simp), if_pos hpass, ih seen hbefore]
          simp [ht]

theorem previousConjunct_series {c : Conjunct} (before rest : List Tree)
    (hc : IsConjunct f.punctuationTags interjections c.tree)
    (hrun : ∀ t ∈ c.punctuation,
      isSeparator t = true ∨ f.passesOver interjections t.basicCategory t = true)
    (hseparated : c.punctuation.any isSeparator = true) :
    f.previousConjunct interjections (before ++ c.nodes ++ rest)
      (before ++ c.nodes).length = some before.length := by
  have hlist : before ++ c.nodes ++ rest = before ++ [c.tree] ++ c.punctuation ++ rest := by
    simp [Conjunct.nodes]
  have hlength : (before ++ c.nodes).length = (before ++ [c.tree]).length + c.punctuation.length := by
    simp only [Conjunct.nodes, List.length_append, List.length_cons, List.length_nil]
    omega
  have hget : (before ++ [c.tree] ++ c.punctuation ++ rest)[before.length]? = some c.tree := by
    simp
  rw [previousConjunct, hlist, hlength, conjunctBefore_run false hrun, hseparated,
    List.length_append, List.length_singleton, conjunctBefore_succ hget]
  simp [hc.notSeparator, hc.passesOver_eq_false (Or.inr rfl)]

-- A coordinator with something before it is looked back from.
theorem coordinated?_of_coordinator {before later : List Tree} {coordinator final : Tree}
    (hpos : 0 < before.length) (hcoordinator : isCoordinator coordinator = true) :
    f.coordinated? (before.length + 1) (before ++ coordinator :: final :: later) =
      (Edge.right.search
        (fun kid => !f.passesOver (final.basicCategory == "UH") kid.label kid) before).map
        (f.firstConjunct (final.basicCategory == "UH")
          (before ++ coordinator :: final :: later)) := by
  have htwo : ¬before.length + 1 < 2 := by omega
  simp [coordinated?, hcoordinator, htwo]

-- From behind the separators of one conjunct after the other, the way leads to the first.
theorem firstConjunct_series {earlier : List Conjunct} (rest : List Tree)
    (hconjuncts : ∀ c ∈ earlier, IsConjunct f.punctuationTags interjections c.tree)
    (hrun : ∀ c ∈ earlier, ∀ t ∈ c.punctuation,
      isSeparator t = true ∨ f.passesOver interjections t.basicCategory t = true)
    (hseparated : ∀ c ∈ earlier, c.punctuation.any isSeparator = true) :
    f.firstConjunct interjections (earlier.flatMap Conjunct.nodes ++ rest)
      (earlier.flatMap Conjunct.nodes).length = 0 := by
  induction earlier using List.reverseRecOn generalizing rest with
  | nil =>
      have hle := f.firstConjunct_le interjections ([] ++ rest) 0
      exact Nat.le_zero.mp hle
  | append_singleton earlier c ih =>
      have hprevious := previousConjunct_series (earlier.flatMap Conjunct.nodes) rest
        (hconjuncts c (by simp)) (hrun c (by simp)) (hseparated c (by simp))
      have hstep := ih (c.nodes ++ rest)
        (fun d hd => hconjuncts d (List.mem_append_left [c] hd))
        (fun d hd => hrun d (List.mem_append_left [c] hd))
        (fun d hd => hseparated d (List.mem_append_left [c] hd))
      rw [List.flatMap_append, List.flatMap_singleton, firstConjunct_of_previousConjunct hprevious,
        List.append_assoc]
      exact hstep

section PackagedTags

variable (htags : f.punctuationTags = Config.Packaged.punctuationTags)

include htags in
theorem IsPunctuation.basicCategory_eq {t : Tree} (h : IsPunctuation f.punctuationTags t) :
    t.basicCategory = t.label := by
  apply Config.Packaged.basicCategory_of_mem_punctuationTags
  rw [← htags]
  exact List.contains_iff_mem.mp h.2

include htags in
-- Behind the last conjunct and its punctuation stands a coordinator with another conjunct. As the
-- head that one gives way to the first conjunct of all.
theorem adjust_series {earlier : List Conjunct} {last : Conjunct} {coordinator final : Tree}
    (later : List Tree) (hcoordinator : isCoordinator coordinator = true)
    (hseries : IsSeries f.punctuationTags (final.basicCategory == "UH") earlier last) :
    f.adjust ((earlier.flatMap Conjunct.nodes ++ last.nodes).length + 1)
      (earlier.flatMap Conjunct.nodes ++ last.nodes ++ coordinator :: final :: later) = 0 := by
  have hpasses (c : Conjunct) (hc : c ∈ earlier) (t : Tree) (ht : t ∈ c.punctuation) :
      isSeparator t = true ∨ f.passesOver (final.basicCategory == "UH") t.basicCategory t = true := by
    have hpunctuation := hseries.punctuation c (List.mem_append_left [last] hc) t ht
    rw [hpunctuation.basicCategory_eq htags]
    exact Or.inr (hpunctuation.passesOver _)
  have hseparated (c : Conjunct) (hc : c ∈ earlier) : c.punctuation.any isSeparator = true := by
    obtain ⟨t, ht, hlabel⟩ := hseries.separated c hc
    have hpunctuation := hseries.punctuation c (List.mem_append_left [last] hc) t ht
    refine List.any_eq_true.mpr ⟨t, ht, ?_⟩
    simpa [isSeparator, hpunctuation.basicCategory_eq htags] using hlabel
  have hsearch : Edge.right.search
      (fun kid => !f.passesOver (final.basicCategory == "UH") kid.label kid)
      (earlier.flatMap Conjunct.nodes ++ last.nodes) =
        some (earlier.flatMap Conjunct.nodes).length := by
    have hlast := hseries.conjuncts last (by simp)
    refine Edge.search_right_append_cons ?_ fun t ht => ?_
    · simp [hlast.passesOver_eq_false (Or.inl rfl)]
    · simp [(hseries.punctuation last (by simp) t ht).passesOver]
  have hfirst := firstConjunct_series (last.nodes ++ coordinator :: final :: later)
    (fun c hc => hseries.conjuncts c (List.mem_append_left [last] hc)) hpasses hseparated
  have hpos : 0 < (earlier.flatMap Conjunct.nodes ++ last.nodes).length := by
    rw [List.length_append, Conjunct.nodes, List.length_cons]
    omega
  rw [adjust, coordinated?_of_coordinator hpos hcoordinator, hsearch, Option.map_some,
    Option.getD_some, List.append_assoc]
  exact hfirst

end PackagedTags

-- Three conjuncts before `and`, with a quotation mark and a semicolon behind the second one.
theorem adjust_series_four :
    let earlier : List Conjunct := [
      ⟨.node "JJ" [.leaf "red"], [.node "," [.leaf ","]]⟩,
      ⟨.node "JJ" [.leaf "white"], [.node "''" [.leaf "''"], .node ":" [.leaf ";"]]⟩]
    let last : Conjunct := ⟨.node "ADJP" [.node "JJ" [.leaf "green"]], [.node "," [.leaf ","]]⟩
    let coordinator : Tree := .node "CC" [.leaf "and"]
    let final : Tree := .node "JJ" [.leaf "blue"]
    ∃ f, ofTables Config.Packaged.tables none = .ok f ∧
      f.punctuationTags = Config.Packaged.punctuationTags ∧ isCoordinator coordinator = true ∧
        IsSeries f.punctuationTags (final.basicCategory == "UH") earlier last ∧
          f.adjust 8 (earlier.flatMap Conjunct.nodes ++ last.nodes ++ coordinator :: final :: []) =
            0 := by
  intro earlier last coordinator final
  obtain ⟨f, hf⟩ := exists_ofTables_eq_ok none packaged_semanticRules_ne_nil
  have htags : f.punctuationTags = Config.Packaged.punctuationTags :=
    congrArg punctuationTags (ofTables_words hf)
  have hcoordinator : isCoordinator coordinator = true := by decide
  have hseries : IsSeries f.punctuationTags (final.basicCategory == "UH") earlier last := by
    rw [htags]
    constructor <;> decide +kernel
  exact ⟨f, hf, htags, hcoordinator, hseries, adjust_series htags [] hcoordinator hseries⟩

end Series

section Chains

-- A coordinator stands right before the child, and before that a node that is not passed over.
def IsLaterConjunct (f : SemanticFinder) (children : List Tree) (index : Nat) : Prop :=
  (∃ coordinator, children[index - 1]? = some coordinator ∧ isCoordinator coordinator = true) ∧
    ∃ place kid, place + 1 < index ∧ children[place]? = some kid ∧
      f.passesOver (children[index]?.any (·.basicCategory == "UH")) kid.label kid = false

variable {index : Nat}

theorem coordinated?_eq_none_iff :
    f.coordinated? index children = none ↔ ¬f.IsLaterConjunct children index := by
  constructor
  · rintro h ⟨⟨coordinator, hcoordinator, hcoordinates⟩, place, kid, hplace, hkid, hstays⟩
    have hguard : ¬(index < 2 || !(children[index - 1]?.any isCoordinator)) = true := by
      simp only [hcoordinator, Option.any_some, hcoordinates, Bool.not_true, Bool.or_false,
        decide_eq_true_eq]
      omega
    rw [coordinated?, if_neg hguard, Option.map_eq_none_iff, Edge.search_eq_none_iff] at h
    have hmem : kid ∈ children.take (index - 1) := by
      apply List.mem_of_getElem? (i := place)
      rw [List.getElem?_take_of_lt (by omega)]
      exact hkid
    simpa [hstays] using h kid hmem
  · intro h
    cases hsome : f.coordinated? index children with
    | none => rfl
    | some first =>
        exfalso
        apply h
        refine ⟨coordinated?_isCoordinator hsome, ?_⟩
        unfold coordinated? at hsome
        split at hsome
        · cases hsome
        · obtain ⟨place, hplace, -⟩ := Option.map_eq_some_iff.mp hsome
          obtain ⟨⟨kid, hkid, hstays⟩, -⟩ := Edge.search_eq_some_iff.mp hplace
          have hlt := (Edge.search_eq_some_iff.mp hplace).lt
          rw [List.length_take] at hlt
          rw [List.getElem?_take_of_lt (by omega)] at hkid
          exact ⟨place, kid, by omega, hkid, by simpa using hstays⟩

theorem adjust_eq_self_iff :
    f.adjust index children = index ↔ ¬f.IsLaterConjunct children index := by
  rw [← coordinated?_eq_none_iff, adjust]
  cases h : f.coordinated? index children with
  | none => simp
  | some place =>
      have hlt := coordinated?_lt h
      simp only [Option.getD_some, reduceCtorEq, iff_false]
      omega

-- A head that is moved leaves a coordinator behind.
theorem countP_take_adjust_lt (h : f.IsLaterConjunct children index) :
    (children.take (f.adjust index children)).countP isCoordinator <
      (children.take index).countP isCoordinator := by
  obtain ⟨⟨coordinator, hcoordinator, hcoordinates⟩, -⟩ := id h
  have hmoved : f.adjust index children + 1 < index := by
    cases hsome : f.coordinated? index children with
    | none => exact absurd h (coordinated?_eq_none_iff.mp hsome)
    | some place =>
        have hlt := coordinated?_lt hsome
        rwa [adjust, hsome, Option.getD_some]
  obtain ⟨before, rfl⟩ : ∃ before, index = before + 1 := ⟨index - 1, by omega⟩
  rw [Nat.add_sub_cancel] at hcoordinator
  have hle : (children.take (f.adjust (before + 1) children)).countP isCoordinator ≤
      (children.take before).countP isCoordinator :=
    (List.take_prefix_take_left (by omega)).sublist.countP_le
  rw [List.take_add_one, hcoordinator, Option.toList_some, List.countP_append,
    List.countP_singleton, if_pos hcoordinates]
  omega

-- A head that is moved often enough stays where it is.
theorem exists_iterate_adjust (f : SemanticFinder) (children : List Tree) (index : Nat) :
    ∃ n ≤ (children.take index).countP isCoordinator,
      f.adjust ((f.adjust · children)^[n] index) children = (f.adjust · children)^[n] index := by
  induction hcount : (children.take index).countP isCoordinator using Nat.strongRecOn
    generalizing index with
  | ind count ih =>
      by_cases hlater : f.IsLaterConjunct children index
      · have hlt := countP_take_adjust_lt hlater
        rw [hcount] at hlt
        obtain ⟨n, hn, hfixed⟩ := ih _ hlt (f.adjust index children) rfl
        exact ⟨n + 1, by omega, hfixed⟩
      · exact ⟨0, Nat.zero_le _, adjust_eq_self_iff.mpr hlater⟩

-- The place of a head that has been moved is moved again exactly where it is that of a later
-- conjunct itself. With each move a coordinator is left behind, so the moves come to an end.
theorem adjust_adjust_eq_iff (f : SemanticFinder) (children : List Tree) (index : Nat) :
    (f.adjust (f.adjust index children) children = f.adjust index children ↔
      ¬f.IsLaterConjunct children (f.adjust index children)) ∧
    ∃ n ≤ (children.take index).countP isCoordinator,
      f.adjust ((f.adjust · children)^[n] index) children = (f.adjust · children)^[n] index :=
  ⟨adjust_eq_self_iff, f.exists_iterate_adjust children index⟩

-- In `a and b and c` the head is moved from `c` to `b`, which is a later conjunct.
theorem adjust_adjust_chain :
    let conjunct (word : String) : Tree := .node "NN" [.leaf word]
    let coordinator : Tree := .node "CC" [.leaf "and"]
    let children := [conjunct "a", coordinator, conjunct "b", coordinator, conjunct "c"]
    ∃ f, ofTables Config.Packaged.tables none = .ok f ∧ f.adjust 4 children = 2 ∧
      f.adjust (f.adjust 4 children) children = 0 := by
  intro conjunct coordinator children
  have hrun : ((ofTables Config.Packaged.tables none).map fun f =>
      (f.adjust 4 children, f.adjust (f.adjust 4 children) children)).toOption = some (2, 0) := by
    decide +kernel
  obtain ⟨f, hf, hmoved⟩ := map_eq_ok.mp (toOption_eq_some.mp hrun)
  obtain ⟨honce, htwice⟩ := Prod.mk.inj hmoved
  exact ⟨f, hf, honce, htwice⟩

end Chains

end SemanticFinder

end HeadPercolation
