import HeadPercolation.Proofs.Finder.Choice
import HeadPercolation.Semantic.Coordination

namespace HeadPercolation.SemanticFinder

variable {f : SemanticFinder} {children : List Tree}

theorem firstConjunct_le (f : SemanticFinder) (interjections : Bool) (children : List Tree)
    (index : Nat) : f.firstConjunct interjections children index ≤ index := by
  induction index using Nat.strongRecOn with
  | ind index ih =>
      rw [firstConjunct]
      split
      · exact Nat.le_refl index
      · rename_i place hplace
        have hlt : place < index := lt_of_conjunctBefore hplace
        exact Nat.le_trans (ih place hlt) (Nat.le_of_lt hlt)

theorem firstConjunct_of_previousConjunct {interjections : Bool} {index place : Nat}
    (h : f.previousConjunct interjections children index = some place) :
    f.firstConjunct interjections children index =
      f.firstConjunct interjections children place := by
  rw [firstConjunct]
  split
  · rename_i hnone
    cases h.symm.trans hnone
  · rename_i place' hsome
    cases h.symm.trans hsome
    rfl

theorem firstConjunct_of_previousConjunct_eq_none {interjections : Bool} {index : Nat}
    (h : f.previousConjunct interjections children index = none) :
    f.firstConjunct interjections children index = index := by
  rw [firstConjunct]
  split
  · rfl
  · rename_i place hsome
    cases h.symm.trans hsome

-- Only the steps from one conjunct to the one before it count.
theorem firstConjunct_congr {g : SemanticFinder} {interjections : Bool} {others : List Tree}
    (h : ∀ index, f.previousConjunct interjections children index =
      g.previousConjunct interjections others index) (index : Nat) :
    f.firstConjunct interjections children index = g.firstConjunct interjections others index := by
  induction index using Nat.strongRecOn with
  | ind index ih =>
      cases hprevious : f.previousConjunct interjections children index with
      | none =>
          rw [firstConjunct_of_previousConjunct_eq_none hprevious,
            firstConjunct_of_previousConjunct_eq_none ((h index).symm.trans hprevious)]
      | some place =>
          rw [firstConjunct_of_previousConjunct hprevious,
            firstConjunct_of_previousConjunct ((h index).symm.trans hprevious)]
          exact ih place (lt_of_conjunctBefore hprevious)

-- Where no step leads any further, the index itself is left, or the end of a step.
theorem firstConjunct_cases (f : SemanticFinder) (interjections : Bool) (children : List Tree)
    (index : Nat) :
    f.firstConjunct interjections children index = index ∨
      ∃ start, f.previousConjunct interjections children start =
        some (f.firstConjunct interjections children index) := by
  induction index using Nat.strongRecOn with
  | ind index ih =>
      cases hprevious : f.previousConjunct interjections children index with
      | none => exact Or.inl (firstConjunct_of_previousConjunct_eq_none hprevious)
      | some place =>
          right
          rw [firstConjunct_of_previousConjunct hprevious]
          rcases ih place (lt_of_conjunctBefore hprevious) with hplace | hstart
          · exact ⟨index, by rw [hprevious, hplace]⟩
          · exact hstart

-- The first conjunct stands to the left of the coordinator.
theorem coordinated?_lt {index place : Nat} (h : f.coordinated? index children = some place) :
    place + 1 < index := by
  unfold coordinated? at h
  split at h
  · cases h
  · obtain ⟨start, hstart, rfl⟩ := Option.map_eq_some_iff.mp h
    have hlt := (Edge.search_eq_some_iff.mp hstart).lt
    have hle := f.firstConjunct_le (children[index]?.any (·.basicCategory == "UH")) children start
    rw [List.length_take] at hlt
    omega

-- Right before the child stands a coordinator.
theorem coordinated?_isCoordinator {index place : Nat}
    (h : f.coordinated? index children = some place) :
    ∃ coordinator, children[index - 1]? = some coordinator ∧ isCoordinator coordinator = true := by
  unfold coordinated? at h
  split at h
  · cases h
  · rename_i hguard
    simp only [Bool.or_eq_true, not_or, Bool.not_eq_true, Bool.not_eq_false'] at hguard
    exact (Option.any_eq_true ..).mp hguard.2

theorem adjust_le (f : SemanticFinder) (index : Nat) (children : List Tree) :
    f.adjust index children ≤ index := by
  unfold adjust
  cases h : f.coordinated? index children with
  | none => exact Nat.le_refl index
  | some place =>
      have hlt := coordinated?_lt h
      simp only [Option.getD_some]
      omega

-- A head is only moved to the left, so it is not moved out of the children.
theorem adjust_keepsInside (f : SemanticFinder) (children : List Tree) :
    KeepsInside f.adjust children :=
  fun i hi => Nat.lt_of_le_of_lt (f.adjust_le i children) hi

end HeadPercolation.SemanticFinder
