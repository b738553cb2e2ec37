import HeadPercolation.Proofs.Finder.Plain

namespace HeadPercolation

mutual

-- The tree with its words from right to left.
def Tree.mirror : Tree → Tree
  | .leaf word => .leaf word
  | .node label ts => .node label (mirrorEach ts)

def mirrorEach : List Tree → List Tree
  | [] => []
  | t :: ts => mirrorEach ts ++ [t.mirror]

end

-- The way down to the same node in the mirror.
def Tree.mirrorWay (t : Tree) : Path → Path
  | [] => []
  | i :: way =>
    (t.children.length - 1 - i) ::
      match t.children[i]? with
      | some c => c.mirrorWay way
      | none => way

-- The name of the direction from the other edge. A name of no direction stays.
def Direction.oppositeName : String → String
  | "left" => "right"
  | "right" => "left"
  | "leftdis" => "rightdis"
  | "rightdis" => "leftdis"
  | "leftexcept" => "rightexcept"
  | "rightexcept" => "leftexcept"
  | name => name

def Directive.Written.opposite (w : Written) : Written :=
  { w with direction := Direction.oppositeName w.direction }

-- The finder with the edges of its directives interchanged, that of the default rule included.
def HeadFinder.mirror (hf : HeadFinder) : HeadFinder :=
  { hf with
    rules := hf.rules.map (·.map Directive.opposite)
    defaultRule := hf.defaultRule.map Directive.opposite }

theorem mirrorEach_eq (ts : List Tree) : mirrorEach ts = (ts.map Tree.mirror).reverse := by
  induction ts with
  | nil => rfl
  | cons t ts ih => rw [mirrorEach, ih, List.map_cons, List.reverse_cons]

namespace Tree

@[simp] theorem label_mirror (t : Tree) : t.mirror.label = t.label := by
  cases t <;> rfl

@[simp] theorem basicCategory_mirror (t : Tree) : t.mirror.basicCategory = t.basicCategory := by
  rw [basicCategory, basicCategory, label_mirror]

theorem children_mirror (t : Tree) : t.mirror.children = mirrorEach t.children := by
  cases t <;> rfl

theorem length_mirrorEach (ts : List Tree) : (mirrorEach ts).length = ts.length := by
  rw [mirrorEach_eq, List.length_reverse, List.length_map]

-- The nodes of a tree are found in its mirror.
theorem get?_mirror {t s : Tree} {way : Path} (h : t.get? way = some s) :
    t.mirror.get? (t.mirrorWay way) = some s.mirror := by
  induction way generalizing t with
  | nil =>
      cases h
      rfl
  | cons i way ih =>
      obtain ⟨c, hc, hget⟩ := get?_cons_eq_some.mp h
      obtain ⟨hi, -⟩ := List.getElem?_eq_some_iff.mp hc
      rw [mirrorWay, hc]
      refine get?_cons_eq_some.mpr ⟨c.mirror, ?_, ih hget⟩
      have hback : t.children.length - 1 - (t.children.length - 1 - i) = i := by omega
      rw [children_mirror, mirrorEach_eq, List.getElem?_reverse (by rw [List.length_map]; omega),
        List.length_map, hback, List.getElem?_map, hc]
      rfl

end Tree

-- A search from one edge finds what the search of the reversed list from the other edge finds.
theorem Edge.search_opposite_reverse {α : Type} (edge : Edge) (p : α → Bool) (xs : List α) :
    edge.opposite.search p xs.reverse = (edge.search p xs).map (xs.length - 1 - ·) := by
  cases edge with
  | left => simp [opposite, search]
  | right =>
      rw [opposite, search, search]
      cases hfind : xs.reverse.findIdx? p with
      | none => rfl
      | some k =>
          have hk : k < xs.length := by
            simpa using (List.findIdx?_eq_some_iff_getElem.mp hfind).1
          have hback : xs.length - 1 - (xs.length - 1 - k) = k := by omega
          simp [hback]

theorem Edge.search_mirrorEach (edge : Edge) (p : String → Bool) (ts : List Tree) :
    edge.opposite.search (fun kid => p kid.basicCategory) (mirrorEach ts) =
      (edge.search (fun kid => p kid.basicCategory) ts).map (ts.length - 1 - ·) := by
  rw [← search_opposite_reverse]
  apply search_congr
  rw [mirrorEach_eq, ← List.map_reverse, List.map_map]
  simp only [Function.comp_def, Tree.basicCategory_mirror]

theorem Directive.choose?_opposite (d : Directive) (ts : List Tree) :
    d.opposite.choose? (mirrorEach ts) = (d.choose? ts).map (ts.length - 1 - ·) := by
  obtain ⟨⟨edge, selection⟩, categories⟩ := d
  cases selection with
  | ranked =>
      have hsearch (category : String) := edge.search_mirrorEach (· == category) ts
      simp only [choose?, opposite, Direction.opposite, hsearch, List.map_findSome?,
        Function.comp_def]
  | listed => exact edge.search_mirrorEach categories.contains ts
  | unlisted => exact edge.search_mirrorEach (!categories.contains ·) ts

theorem Directive.written_opposite (d : Directive) : d.opposite.written = d.written.opposite := by
  obtain ⟨⟨edge, selection⟩, categories⟩ := d
  cases edge <;> cases selection <;> rfl

namespace HeadFinder

variable {hf : HeadFinder}

theorem IsPlain.mirror (h : hf.IsPlain) : hf.mirror.IsPlain :=
  ⟨h.adjust, h.marked, h.special⟩

theorem resort_mirror (hf : HeadFinder) (edge : Edge) :
    hf.mirror.resort edge.opposite = (hf.resort edge).opposite := by
  rw [resort, resort]
  cases havoid : hf.avoid.isEmpty <;> simp [mirror, havoid, Directive.opposite, Direction.opposite]

theorem IsPlain.locateLast_mirror (h : hf.IsPlain) (ts : List Tree) (d : Directive) :
    hf.mirror.locateLast (mirrorEach ts) d.opposite =
      (hf.locateLast ts d).map (ts.length - 1 - ·) := by
  have hdirection : d.opposite.direction.edge = d.direction.edge.opposite := rfl
  have hedge : d.direction.edge.opposite.outermost? (mirrorEach ts) =
      (d.direction.edge.outermost? ts).map (ts.length - 1 - ·) :=
    d.direction.edge.search_mirrorEach (fun _ => true) ts
  rw [h.mirror.locateLast_eq, h.locateLast_eq, hdirection, resort_mirror,
    Directive.choose?_opposite, Directive.choose?_opposite, hedge, ← Option.map_or,
    ← Option.map_or]
  cases ((d.choose? ts).or ((hf.resort d.direction.edge).choose? ts)).or
    (d.direction.edge.outermost? ts) <;> rfl

theorem IsPlain.locateFirst_mirror (h : hf.IsPlain) (ts : List Tree) (ds : List Directive) :
    hf.mirror.locateFirst (mirrorEach ts) (ds.map Directive.opposite) =
      (hf.locateFirst ts ds).map (ts.length - 1 - ·) := by
  induction ds with
  | nil => rfl
  | cons d ds ih =>
      cases ds with
      | nil => exact h.locateLast_mirror ts d
      | cons e es =>
          rw [List.map_cons] at ih
          rw [List.map_cons, List.map_cons, h.locateFirst_eq, h.mirror.locateFirst_eq,
            Directive.choose?_opposite, ih]
          cases d.choose? ts <;> rfl

-- An error for want of a rule names the tree, so errors are not compared.
theorem IsPlain.tableHead_mirror (h : hf.IsPlain) (t : Tree) :
    (hf.mirror.tableHead t.mirror).toOption =
      (hf.tableHead t).toOption.map (t.children.length - 1 - ·) := by
  have hcategory : ruleCategory t.mirror = ruleCategory t := by
    rw [ruleCategory, Tree.basicCategory_mirror, ruleCategory]
  have hrules : hf.mirror.rules.get? (ruleCategory t) =
      (hf.rules.get? (ruleCategory t)).map (·.map Directive.opposite) :=
    Table.get?_map _ hf.rules (ruleCategory t)
  have hdefault : hf.mirror.defaultRule = hf.defaultRule.map Directive.opposite := rfl
  simp only [tableHead, hcategory, Tree.children_mirror, hrules, hdefault]
  cases hf.rules.get? (ruleCategory t) with
  | some ds =>
      rw [← toOption_map, ← h.locateFirst_mirror]
      rfl
  | none =>
      cases hf.defaultRule with
      | some d =>
          rw [← toOption_map, ← h.locateLast_mirror]
          rfl
      | none => rfl

-- The index of the head, counted from the other edge, is the one in the mirror.
theorem IsPlain.headIndex_mirror (h : hf.IsPlain) (t : Tree) (parent parent' : Option Parent) :
    (hf.mirror.headIndex t.mirror parent').toOption =
      (hf.headIndex t parent).toOption.map (t.children.length - 1 - ·) := by
  have hlength : t.mirror.children.length = t.children.length := by
    rw [Tree.children_mirror, Tree.length_mirrorEach]
  rcases Nat.lt_trichotomy t.children.length 1 with hnone | honly | hchoice
  · have hzero : t.children.length = 0 := by omega
    rw [headIndex_of_length_eq_zero _ hzero, headIndex_of_length_eq_zero _ (hlength.trans hzero)]
    rfl
  · rw [h.headIndex_of_length_eq_one honly, h.mirror.headIndex_of_length_eq_one
      (hlength.trans honly), honly]
    rfl
  · rw [h.headIndex_of_two_le_length hchoice,
      h.mirror.headIndex_of_two_le_length (hlength ▸ hchoice)]
    exact h.tableHead_mirror t

section Rules

variable {rules : Table (List Directive.Written)} {avoid : List String}
  {defaultRule : Option Directive.Written}

-- The mirror of an accepted finder is what the other names of its directions are read as.
theorem ofRules_mirror (h : ofRules rules avoid defaultRule = .ok hf) :
    ofRules (rules.map (·.map Directive.Written.opposite)) avoid
      (defaultRule.map Directive.Written.opposite) = .ok hf.mirror := by
  obtain ⟨hshape, hrules, hdefault⟩ := ofRules_eq_ok h
  have hwritten (ds : List Directive) : (ds.map Directive.written).map Directive.Written.opposite =
      (ds.map Directive.opposite).map Directive.written := by
    simp only [List.map_map, Function.comp_def, Directive.written_opposite]
  have htable : (rules.map (·.map Directive.Written.opposite)).mapExcept checkDirectives =
      .ok (hf.rules.map (·.map Directive.opposite)) := by
    refine Table.mapExcept_map (fun category ws ds hds => ?_) hrules
    obtain ⟨rfl, hne⟩ := checkDirectives_eq_ok.mp hds
    exact checkDirectives_eq_ok.mpr ⟨hwritten ds, by simpa using hne⟩
  have hoption : (defaultRule.map Directive.Written.opposite).mapM Directive.ofWritten =
      .ok (hf.defaultRule.map Directive.opposite) := by
    rw [hdefault]
    cases hf.defaultRule with
    | none => rfl
    | some d => exact bind_of_eq_ok (Directive.ofWritten_eq_ok.mpr d.written_opposite.symm)
  rw [ofRules, bind_of_eq_ok htable, bind_of_eq_ok hoption, mirror, hshape]
  rfl

-- If left and right are interchanged in a tree and in the rules of a finder, then each node has the
-- same head as before, counted from the other side.
theorem headIndex_mirror_iff (h : ofRules rules avoid defaultRule = .ok hf) :
    ∃ hf', ofRules (rules.map (·.map Directive.Written.opposite)) avoid
        (defaultRule.map Directive.Written.opposite) = .ok hf' ∧
      ∀ (t : Tree) (way : Path) (s : Tree), t.get? way = some s →
        t.mirror.get? (t.mirrorWay way) = some s.mirror ∧
          ∀ parent parent',
            (∀ k, hf.headIndex s parent = .ok k ↔
              k < s.children.length ∧
                hf'.headIndex s.mirror parent' = .ok (s.children.length - 1 - k)) ∧
              ((∃ e, hf.headIndex s parent = .error e) ↔
                ∃ e, hf'.headIndex s.mirror parent' = .error e) := by
  refine ⟨hf.mirror, ofRules_mirror h, fun t way s hs => ⟨Tree.get?_mirror hs, ?_⟩⟩
  intro parent parent'
  have hmirror := (isPlain_of_ofRules h).headIndex_mirror s parent parent'
  cases hhead : hf.headIndex s parent with
  | error e =>
      rw [hhead] at hmirror
      cases hhead' : hf.mirror.headIndex s.mirror parent' with
      | error e' => simp
      | ok k =>
          rw [hhead'] at hmirror
          cases hmirror
  | ok k =>
      have hk : k < s.children.length :=
        (choosesChildren_of_ofRules h hf.adjust).headIndex_lt hhead
      rw [hhead] at hmirror
      rw [toOption_eq_some.mp hmirror]
      refine ⟨fun k' => ?_, by simp⟩
      simp only [Except.ok.injEq]
      omega

-- No child is listed, so the last resort passes over the full stop and takes the child next to it.
theorem headIndex_mirror_iff_resort :
    let rules : Table (List Directive.Written) := .ofList [("NP", [⟨"right", ["NN"]⟩])]
    let t : Tree := .node "NP" [.node "DT" [.leaf "the"], .node "CD" [.leaf "two"],
      .node "JJ" [.leaf "old"], .node "." [.leaf "."]]
    ∃ hf hf', ofRules rules ["."] none = .ok hf ∧
      ofRules (rules.map (·.map Directive.Written.opposite)) ["."] none = .ok hf' ∧
        hf.headIndex t none = .ok 2 ∧ hf'.headIndex t.mirror none = .ok 1 := by
  intro rules t
  let hf : HeadFinder := { rules := .ofList [("NP", [.right ["NN"]])], avoid := ["."] }
  have hrules : ofRules rules ["."] none = .ok hf := rfl
  have hhead : (hf.headIndex t none).toOption = some 2 := by decide +kernel
  obtain ⟨hf', hrules', hmirror⟩ := headIndex_mirror_iff hrules
  obtain ⟨-, hheads⟩ := hmirror t [] t rfl
  have hindex := toOption_eq_some.mp hhead
  exact ⟨hf, hf', hrules, hrules', hindex, (((hheads none none).1 2).mp hindex).2⟩

end Rules

end HeadFinder

end HeadPercolation
