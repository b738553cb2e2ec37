import HeadPercolation.Proofs.Finder.Choice
import HeadPercolation.Proofs.Finder.Percolation

namespace HeadPercolation

theorem Tree.isLeaf_of_length_pos {t : Tree} (h : 0 < t.children.length) : t.isLeaf = false := by
  cases t with
  | leaf word => cases h
  | node label ts => rfl

namespace HeadFinder

variable {hf : HeadFinder}

-- A finder of a table alone.
structure IsPlain (hf : HeadFinder) : Prop where
  adjust : hf.adjust = fun i _ => i
  marked : hf.marked = fun _ => none
  special : hf.special = fun _ _ => .ok none

theorem IsPlain.locate_eq (h : hf.IsPlain) (ts : List Tree) (d : Directive) :
    hf.locate ts d = .ok (d.choose? ts) := by
  cases hchoose : d.choose? ts with
  | none => rw [locate, hchoose]
  | some i =>
      have hi : i < ts.length := (Directive.choose?_eq_some_iff.mp hchoose).lt
      simp only [locate, hchoose, h.adjust, if_pos hi]

theorem isPlain_of_ofRules {rules : Table (List Directive.Written)} {avoid : List String}
    {defaultRule : Option Directive.Written} (h : ofRules rules avoid defaultRule = .ok hf) :
    hf.IsPlain := by
  obtain ⟨hshape, -, -⟩ := ofRules_eq_ok h
  rw [hshape]
  exact ⟨rfl, rfl, rfl⟩

-- The directive, the last resort and the edge are tried in turn.
theorem IsPlain.locateLast_eq (h : hf.IsPlain) (ts : List Tree) (d : Directive) :
    hf.locateLast ts d =
      (((d.choose? ts).or ((hf.resort d.direction.edge).choose? ts)).or
        (d.direction.edge.outermost? ts)).elim (.error .outOfRange) .ok := by
  rw [locateLast, h.locate_eq, h.locate_eq]
  cases d.choose? ts with
  | some i => rfl
  | none =>
      cases (hf.resort d.direction.edge).choose? ts with
      | some i => rfl
      | none => cases d.direction.edge.outermost? ts <;> rfl

theorem IsPlain.locateFirst_eq (h : hf.IsPlain) (ts : List Tree) (d e : Directive)
    (es : List Directive) :
    hf.locateFirst ts (d :: e :: es) =
      (d.choose? ts).elim (hf.locateFirst ts (e :: es)) .ok := by
  refine (bind_of_eq_ok (h.locate_eq ts d)).trans ?_
  cases d.choose? ts <;> rfl

-- The index of the head of a node with two or more children is the choice by the table.
theorem IsPlain.headIndex_of_two_le_length (h : hf.IsPlain) {t : Tree}
    (hchoice : 2 ≤ t.children.length) (parent : Option Parent) :
    hf.headIndex t parent = hf.tableHead t := by
  have hinner := Tree.isLeaf_of_length_pos (Nat.lt_of_succ_le (Nat.le_of_succ_le hchoice))
  have hspecial : hf.special t parent = .ok none := by rw [h.special]
  simp only [headIndex, hinner, Bool.false_eq_true, if_false]
  rw [head_of_two_le_length (congrFun h.marked t) hchoice, chosenHead, bind_of_eq_ok hspecial]
  cases hf.tableHead t <;> rfl

theorem IsPlain.headIndex_of_length_eq_one (h : hf.IsPlain) {t : Tree}
    (honly : t.children.length = 1) (parent : Option Parent) : hf.headIndex t parent = .ok 0 := by
  have hinner := Tree.isLeaf_of_length_pos (Nat.lt_of_lt_of_eq Nat.one_pos honly.symm)
  exact headIndex_of_head hinner (head_of_length_eq_one (congrFun h.marked t) honly parent)

theorem headIndex_of_length_eq_zero (hf : HeadFinder) {t : Tree} (hnone : t.children.length = 0)
    (parent : Option Parent) : (hf.headIndex t parent).toOption = none := by
  cases t with
  | leaf word => rfl
  | node label ts =>
      obtain rfl : ts = [] := List.length_eq_zero_iff.mp hnone
      rfl

end HeadFinder

end HeadPercolation
