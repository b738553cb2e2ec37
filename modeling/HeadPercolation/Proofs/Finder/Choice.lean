import HeadPercolation.Finder.Narrator
import HeadPercolation.Proofs.Finder.Rules
import HeadPercolation.Proofs.HeadRule.Hits

namespace HeadPercolation

-- What directives come to among the children of a node: the head, and the places that are given
-- to the hook on the way.
inductive Settles (avoid : List String) (adjust : Nat → List Tree → Nat) (children : List Tree)
    (ds : List Directive) : Nat → List Nat → Prop
  -- The first directive that hits decides.
  | hit {before : List Directive} {d : Directive} {after : List Directive} {i : Nat}
      (hds : ds = before ++ d :: after) (hbefore : ∀ e ∈ before, ∀ j, ¬e.Hits children j)
      (hit : d.Hits children i) : Settles avoid adjust children ds (adjust i children) [i]
  -- If none hits, then the child nearest to the edge that is not avoided.
  | resort {last : Directive} {i : Nat} (hnone : ∀ d ∈ ds, ∀ j, ¬d.Hits children j)
      (hlast : ds.getLast? = some last) (havoid : avoid ≠ [])
      (hn : last.direction.edge.Nearest (·.basicCategory ∉ avoid) children i) :
      Settles avoid adjust children ds (adjust i children) [i]
  -- If there is no such child, then the one at the edge, past the hook.
  | edge {last : Directive} {i : Nat} (hnone : ∀ d ∈ ds, ∀ j, ¬d.Hits children j)
      (hlast : ds.getLast? = some last)
      (hall : avoid = [] ∨ ∀ kid ∈ children, kid.basicCategory ∈ avoid)
      (hn : last.direction.edge.Nearest (fun _ => True) children i) :
      Settles avoid adjust children ds i []

-- Does the hook stay among the children?
def KeepsInside (adjust : Nat → List Tree → Nat) (children : List Tree) : Prop :=
  ∀ i < children.length, adjust i children < children.length

-- A choice of a place among so many children, if any, that is made without an error.
def Places (count : Nat) (choice : Except HeadError (Option Nat)) : Prop :=
  choice = .ok none ∨ ∃ i < count, choice = .ok (some i)

theorem Places.orElse {count : Nat} {first next : Except HeadError (Option Nat)}
    (h : Places count first) (h' : Places count next) :
    Places count (first >>= fun found =>
      match found with
      | some i => .ok (some i)
      | none => next) := by
  rcases h with hnone | ⟨i, hi, hsome⟩
  · rw [bind_of_eq_ok hnone]
    exact h'
  · rw [bind_of_eq_ok hsome]
    exact Or.inr ⟨i, hi, rfl⟩

section Settles

variable {avoid : List String} {adjust : Nat → List Tree → Nat} {children : List Tree}
  {d : Directive} {ds : List Directive} {i : Nat} {calls : List Nat}

theorem Settles.lt (h : Settles avoid adjust children ds i calls)
    (hkeeps : KeepsInside adjust children) : i < children.length := by
  cases h with
  | hit _ _ hit => exact hkeeps _ hit.lt
  | resort _ _ _ hn => exact hkeeps _ hn.lt
  | edge _ _ _ hn => exact hn.lt

theorem Settles.length_calls_le (h : Settles avoid adjust children ds i calls) :
    calls.length ≤ 1 := by
  cases h <;> simp

theorem Settles.cons (h : Settles avoid adjust children ds i calls)
    (hd : ∀ j, ¬d.Hits children j) : Settles avoid adjust children (d :: ds) i calls := by
  have hnone (hds : ∀ e ∈ ds, ∀ j, ¬e.Hits children j) :
      ∀ e ∈ d :: ds, ∀ j, ¬e.Hits children j := by
    intro e he
    cases List.mem_cons.mp he with
    | inl he => exact he ▸ hd
    | inr he => exact hds e he
  have hlast {last : Directive} (h : ds.getLast? = some last) :
      (d :: ds).getLast? = some last := by
    rw [List.getLast?_cons, h]
    rfl
  cases h with
  | @hit before d' after i hds hbefore hit =>
      have heq : d :: ds = (d :: before) ++ d' :: after := by rw [hds, List.cons_append]
      refine .hit heq ?_ hit
      intro e he
      cases List.mem_cons.mp he with
      | inl he => exact he ▸ hd
      | inr he => exact hbefore e he
  | resort hds hl havoid hn => exact .resort (hnone hds) (hlast hl) havoid hn
  | edge hds hl hall hn => exact .edge (hnone hds) (hlast hl) hall hn

end Settles

namespace HeadFinder

variable {hf : HeadFinder} {children : List Tree} {t : Tree}

theorem locate_of_hits {d : Directive} {i : Nat} (hkeeps : KeepsInside hf.adjust children)
    (h : d.Hits children i) : hf.locate children d = .ok (some (hf.adjust i children)) := by
  have hchoose := Directive.choose?_eq_some_iff.mpr h
  have hlt := hkeeps i h.lt
  simp only [locate, hchoose, hlt, if_true]

theorem locate_of_not_hits {d : Directive} (h : ∀ i, ¬d.Hits children i) :
    hf.locate children d = .ok none := by
  have hchoose := Directive.choose?_eq_none_iff.mpr h
  simp only [locate, hchoose]

-- A child that is located is one that is hit, past the hook.
theorem locate_eq_ok_some {d : Directive} {i : Nat} (h : hf.locate children d = .ok (some i)) :
    i < children.length ∧ ∃ pick, d.Hits children pick ∧ hf.adjust pick children = i := by
  unfold locate at h
  split at h
  · cases h
  · rename_i pick hpick
    dsimp only at h
    split at h
    · rename_i hlt
      cases h
      exact ⟨hlt, pick, Directive.choose?_eq_some_iff.mp hpick, rfl⟩
    · cases h

theorem locate_places (hkeeps : KeepsInside hf.adjust children) (d : Directive) :
    Places children.length (hf.locate children d) := by
  by_cases h : ∃ i, d.Hits children i
  · obtain ⟨i, hit⟩ := h
    exact Or.inr ⟨hf.adjust i children, hkeeps i hit.lt, locate_of_hits hkeeps hit⟩
  · exact Or.inl (locate_of_not_hits fun i hit => h ⟨i, hit⟩)

-- With nothing to avoid the last resort hits no child.
theorem resort_hits_iff {edge : Edge} {i : Nat} :
    (hf.resort edge).Hits children i ↔
      hf.avoid ≠ [] ∧ edge.Nearest (·.basicCategory ∉ hf.avoid) children i := by
  unfold resort
  by_cases havoid : hf.avoid = []
  · simp [havoid, Directive.Hits]
  · simp [havoid, Directive.Hits]

theorem avoids_all_of_misses {edge : Edge} (h : ∀ i, ¬(hf.resort edge).Hits children i) :
    hf.avoid = [] ∨ ∀ kid ∈ children, kid.basicCategory ∈ hf.avoid := by
  by_cases havoid : hf.avoid = []
  · exact Or.inl havoid
  · refine Or.inr fun kid hkid => ?_
    by_contra hnot
    have hex : ∃ kid ∈ children, kid.basicCategory ∉ hf.avoid := ⟨kid, hkid, hnot⟩
    obtain ⟨i, hn⟩ := edge.exists_nearest hex
    exact h i (resort_hits_iff.mpr ⟨havoid, hn⟩)

-- What a finder reports about directives is what its hook reports where it is called.
def Reports (hf : HeadFinder) (children : List Tree) (remarks : Narrator → List Remark)
    (calls : List Nat) : Prop :=
  ∀ n : Narrator, n.finder = hf → remarks n = calls.flatMap (n.onAdjust · children)

theorem locateLast_settles (hkeeps : KeepsInside hf.adjust children) (hne : children ≠ [])
    (d : Directive) :
    ∃ i calls, hf.locateLast children d = .ok i ∧
      Settles hf.avoid hf.adjust children [d] i calls ∧
        hf.Reports children (·.onLocateLast children d) calls := by
  cases hd : d.choose? children with
  | some i =>
      have hit := Directive.choose?_eq_some_iff.mp hd
      have hsplit : [d] = [] ++ d :: [] := rfl
      refine ⟨hf.adjust i children, [i], ?_, .hit hsplit (by simp) hit, ?_⟩
      · simp only [locateLast, locate_of_hits hkeeps hit]
        rfl
      · intro n _
        simp [Narrator.onLocateLast, Narrator.onLocate, hd]
  | none =>
      have hmiss := Directive.choose?_eq_none_iff.mp hd
      have hnone : ∀ e ∈ [d], ∀ j, ¬e.Hits children j := by simpa using hmiss
      cases hr : (hf.resort d.direction.edge).choose? children with
      | some i =>
          have hit := Directive.choose?_eq_some_iff.mp hr
          obtain ⟨havoid, hn⟩ := resort_hits_iff.mp hit
          refine ⟨hf.adjust i children, [i], ?_, .resort hnone rfl havoid hn, ?_⟩
          · simp only [locateLast, locate_of_not_hits hmiss, locate_of_hits hkeeps hit, bind,
              Except.bind]
            rfl
          · rintro n rfl
            simp [Narrator.onLocateLast, Narrator.onLocate, hd, hr]
      | none =>
          have hmiss' := Directive.choose?_eq_none_iff.mp hr
          cases hedge : d.direction.edge.outermost? children with
          | none =>
              have hfalse := Edge.search_eq_none_iff.mp hedge
              obtain ⟨kid, kids, rfl⟩ := List.exists_cons_of_ne_nil hne
              simpa using hfalse kid (by simp)
          | some i =>
              have hn : d.direction.edge.Nearest (fun _ => True) children i := by
                simpa using Edge.search_eq_some_iff.mp hedge
              refine ⟨i, [], ?_, .edge hnone rfl (avoids_all_of_misses hmiss') hn, ?_⟩
              · simp only [locateLast, locate_of_not_hits hmiss, locate_of_not_hits hmiss', bind,
                  Except.bind, hedge]
                rfl
              · rintro n rfl
                simp [Narrator.onLocateLast, Narrator.onLocate, hd, hr]

-- The hook is called at most once, since a directive that misses does not call it.
theorem locateFirst_settles (hkeeps : KeepsInside hf.adjust children) (hne : children ≠ [])
    {ds : List Directive} (hds : ds ≠ []) :
    ∃ i calls, hf.locateFirst children ds = .ok i ∧
      Settles hf.avoid hf.adjust children ds i calls ∧
        hf.Reports children (·.onLocateFirst children ds) calls := by
  induction ds with
  | nil => exact False.elim (hds rfl)
  | cons d ds ih =>
      cases ds with
      | nil => exact locateLast_settles hkeeps hne d
      | cons e es =>
          cases hd : d.choose? children with
          | some i =>
              have hit := Directive.choose?_eq_some_iff.mp hd
              have hsplit : d :: e :: es = [] ++ d :: e :: es := rfl
              refine ⟨hf.adjust i children, [i], ?_, .hit hsplit (by simp) hit, ?_⟩
              · simp only [locateFirst, locate_of_hits hkeeps hit]
                rfl
              · intro n _
                simp [Narrator.onLocateFirst, Narrator.onLocate, hd]
          | none =>
              have hmiss := Directive.choose?_eq_none_iff.mp hd
              obtain ⟨i, calls, hok, hsettles, hreports⟩ := ih (by simp)
              refine ⟨i, calls, ?_, hsettles.cons hmiss, fun n hn => ?_⟩
              · simp only [locateFirst, locate_of_not_hits hmiss, bind, Except.bind]
                exact hok
              · simpa [Narrator.onLocateFirst, hd] using hreports n hn

-- The head of a node by the table is what its directives, or else the default rule, come to.
theorem tableHead_settles (hkeeps : KeepsInside hf.adjust t.children) (hne : t.children ≠ [])
    {ds : List Directive} (hds : ds ≠ [])
    (hrules : (hf.rules.get? (ruleCategory t)).or (hf.defaultRule.map ([·])) = some ds) :
    ∃ i calls, hf.tableHead t = .ok i ∧ Settles hf.avoid hf.adjust t.children ds i calls ∧
      ∀ n : Narrator, n.finder = hf → n.onTableHead t =
        calls.flatMap (n.onAdjust · t.children) ++
          (t.children[i]?.map fun s => .chosen t.label s.label).toList := by
  cases hget : hf.rules.get? (ruleCategory t) with
  | some ds' =>
      obtain rfl : ds' = ds := by simpa [hget] using hrules
      obtain ⟨i, calls, hok, hsettles, hreports⟩ := locateFirst_settles hkeeps hne hds
      have hhead : hf.tableHead t = .ok i := by simp only [tableHead, hget, hok]
      refine ⟨i, calls, hhead, hsettles, ?_⟩
      rintro n rfl
      simp only [Narrator.onTableHead, hget, hhead, hreports n rfl]
  | none =>
      obtain ⟨d, hdefault, rfl⟩ : ∃ d, hf.defaultRule = some d ∧ [d] = ds := by
        simpa [hget] using hrules
      obtain ⟨i, calls, hok, hsettles, hreports⟩ := locateLast_settles hkeeps hne d
      have hhead : hf.tableHead t = .ok i := by simp only [tableHead, hget, hdefault, hok]
      refine ⟨i, calls, hhead, hsettles, ?_⟩
      rintro n rfl
      simp only [Narrator.onTableHead, hget, hdefault, hhead, hreports n rfl]

theorem chosenHead_of_special {parent : Option Parent} {path : Path}
    (hspecial : hf.special t parent = .ok (some path)) : hf.chosenHead t parent = .ok path := by
  rw [chosenHead, bind_of_eq_ok hspecial]
  rfl

theorem chosenHead_of_tableHead {parent : Option Parent} {i : Nat}
    (hspecial : hf.special t parent = .ok none) (hok : hf.tableHead t = .ok i) :
    hf.chosenHead t parent = .ok [i] := by
  simp only [chosenHead, hspecial, hok]
  rfl

theorem head_of_length_eq_one (hmarked : hf.marked t = none) (h : t.children.length = 1)
    (parent : Option Parent) : hf.head t parent = .ok [0] := by
  cases t with
  | leaf word => cases h
  | node label children =>
      cases children with
      | nil => cases h
      | cons kid kids => simp only [head, hmarked, if_pos (show (kid :: kids).length = 1 from h)]

-- With two or more children and no mark there is a choice.
theorem head_of_two_le_length (hmarked : hf.marked t = none) (h : 2 ≤ t.children.length)
    (parent : Option Parent) : hf.head t parent = hf.chosenHead t parent := by
  cases t with
  | leaf word => cases h
  | node label children =>
      cases children with
      | nil => cases h
      | cons kid kids =>
          have hnot : (kid :: kids).length ≠ 1 := Nat.ne_of_gt h
          simp only [head, hmarked, if_neg hnot]

-- What is located is a child, whatever the hook does, since a place outside is an error.
theorem locateLast_lt {d : Directive} {i : Nat} (h : hf.locateLast children d = .ok i) :
    i < children.length := by
  obtain ⟨found, hfound, h⟩ := bind_eq_ok.mp h
  cases found with
  | some j =>
      cases h
      exact (locate_eq_ok_some hfound).1
  | none =>
      obtain ⟨found, hfound, h⟩ := bind_eq_ok.mp h
      cases found with
      | some j =>
          cases h
          exact (locate_eq_ok_some hfound).1
      | none =>
          cases hedge : d.direction.edge.outermost? children with
          | none =>
              rw [hedge] at h
              cases h
          | some j =>
              rw [hedge] at h
              cases h
              exact (Edge.search_eq_some_iff.mp hedge).lt

theorem locateFirst_lt {ds : List Directive} {i : Nat} (h : hf.locateFirst children ds = .ok i) :
    i < children.length := by
  induction ds with
  | nil => cases h
  | cons d ds ih =>
      cases ds with
      | nil => exact locateLast_lt h
      | cons e es =>
          obtain ⟨found, hfound, h⟩ := bind_eq_ok.mp h
          cases found with
          | some j =>
              cases h
              exact (locate_eq_ok_some hfound).1
          | none => exact ih h

theorem tableHead_lt {i : Nat} (h : hf.tableHead t = .ok i) : i < t.children.length := by
  unfold tableHead at h
  split at h
  · exact locateFirst_lt h
  · split at h
    · exact locateLast_lt h
    · cases h

-- Are all heads children of their nodes? They are if none is marked in the tree and what is chosen
-- before the table is a child.
structure ChoosesChildren (hf : HeadFinder) : Prop where
  marked : hf.marked = fun _ => none
  special : ∀ t parent path, hf.special t parent = .ok (some path) →
    ∃ i < t.children.length, path = [i]

theorem ChoosesChildren.head_eq_ok (hf' : hf.ChoosesChildren) {parent : Option Parent} {way : Path}
    (hinner : t.isLeaf = false) (h : hf.head t parent = .ok way) :
    ∃ i < t.children.length, way = [i] := by
  have hmarked : hf.marked t = none := congrFun hf'.marked t
  cases t with
  | leaf word => cases hinner
  | node label children =>
      cases hlength : children.length with
      | zero =>
          rw [List.length_eq_zero_iff.mp hlength] at h
          cases h
      | succ count =>
          cases count with
          | zero =>
              rw [head_of_length_eq_one hmarked hlength] at h
              cases h
              exact ⟨0, by simp [Tree.children, hlength], rfl⟩
          | succ count =>
              have hchoice : 2 ≤ (Tree.node label children).children.length := by
                simp [Tree.children, hlength]
              rw [head_of_two_le_length hmarked hchoice] at h
              obtain ⟨found, hfound, h⟩ := bind_eq_ok.mp h
              cases found with
              | some path =>
                  cases h
                  exact hf'.special _ parent _ hfound
              | none =>
                  obtain ⟨i, hi, h⟩ := bind_eq_ok.mp h
                  cases h
                  exact ⟨i, tableHead_lt hi, rfl⟩

theorem ChoosesChildren.headIndex_lt (hf' : hf.ChoosesChildren) {parent : Option Parent} {i : Nat}
    (h : hf.headIndex t parent = .ok i) : i < t.children.length := by
  unfold headIndex at h
  split at h
  · cases h
  · rename_i hinner
    rw [Bool.not_eq_true] at hinner
    obtain ⟨way, hway, h⟩ := bind_eq_ok.mp h
    obtain ⟨j, hj, rfl⟩ := hf'.head_eq_ok hinner hway
    cases h
    exact hj

-- The finders of a table do, with any hook.
theorem choosesChildren_of_ofRules {rules : Table (List Directive.Written)} {avoid : List String}
    {defaultRule : Option Directive.Written} (h : ofRules rules avoid defaultRule = .ok hf)
    (adjust : Nat → List Tree → Nat) : { hf with adjust }.ChoosesChildren := by
  obtain ⟨hshape, -, -⟩ := ofRules_eq_ok h
  rw [hshape]
  exact ⟨rfl, fun t parent path hpath => by cases hpath⟩

-- What the table of an accepted finder means, for any hook that stays among the children. The
-- hook is called for one child at most, and for none if only the edge is left.
theorem chosenHead_settles {rules : Table (List Directive.Written)} {avoid : List String}
    {defaultRule : Option Directive.Written} {base : HeadFinder}
    (hbase : ofRules rules avoid defaultRule = .ok base) {adjust : Nat → List Tree → Nat}
    {t : Tree} (hne : t.children ≠ []) (hkeeps : KeepsInside adjust t.children)
    {ws : List Directive.Written}
    (hrules : (rules.get? (ruleCategory t)).or (defaultRule.map ([·])) = some ws) :
    ∃ ds i s calls, ws = ds.map Directive.written ∧ t.children[i]? = some s ∧
      Settles avoid adjust t.children ds i calls ∧ calls.length ≤ 1 ∧
        (∀ parent, { base with adjust }.chosenHead t parent = .ok [i]) ∧
          ∀ n : Narrator, n.finder = { base with adjust } → n.onTableHead t =
            calls.flatMap (n.onAdjust · t.children) ++ [.chosen t.label s.label] := by
  obtain ⟨hshape, -, -⟩ := ofRules_eq_ok hbase
  obtain ⟨ds, hwritten, hds, hget⟩ := ofRules_directives hbase hrules
  have havoid : base.avoid = avoid := congrArg HeadFinder.avoid hshape
  have hspecial : base.special = fun _ _ => .ok none := congrArg HeadFinder.special hshape
  obtain ⟨i, calls, hok, hsettles, hreports⟩ :=
    @tableHead_settles { base with adjust } t hkeeps hne ds hds hget
  obtain ⟨s, hs⟩ : ∃ s, t.children[i]? = some s :=
    ⟨_, List.getElem?_eq_getElem (hsettles.lt hkeeps)⟩
  refine ⟨ds, i, s, calls, hwritten, hs, havoid ▸ hsettles, hsettles.length_calls_le, ?_, ?_⟩
  · exact fun parent => chosenHead_of_tableHead (congrFun₂ hspecial t parent) hok
  · intro n hn
    rw [hreports n hn, hs]
    rfl

-- No directive hits, the full stop is passed over, and the hook moves the head to the left.
theorem chosenHead_settles_resort :
    let rules : Table (List Directive.Written) :=
      .ofList [("NP", [⟨"left", ["NN"]⟩, ⟨"rightdis", ["JJ"]⟩])]
    let ws : List Directive.Written := [⟨"left", ["NN"]⟩, ⟨"rightdis", ["JJ"]⟩]
    let base : HeadFinder :=
      { rules := .ofList [("NP", [.left ["NN"], .rightListed ["JJ"]])], avoid := ["."] }
    let adjust : Nat → List Tree → Nat := fun i _ => i - 1
    let t : Tree := .node "NP-SBJ" [.node "DT" [.leaf "the"], .node "CD" [.leaf "two"],
      .node "." [.leaf "."]]
    ofRules rules ["."] none = .ok base ∧ t.children ≠ [] ∧ KeepsInside adjust t.children ∧
      (rules.get? (ruleCategory t)).or ((none : Option Directive.Written).map ([·])) = some ws ∧
        ∃ ds i s calls, ws = ds.map Directive.written ∧ t.children[i]? = some s ∧
          Settles ["."] adjust t.children ds i calls ∧ calls.length ≤ 1 ∧
            (∀ parent, { base with adjust }.chosenHead t parent = .ok [i]) ∧
              ∀ n : Narrator, n.finder = { base with adjust } → n.onTableHead t =
                calls.flatMap (n.onAdjust · t.children) ++ [.chosen t.label s.label] := by
  intro rules ws base adjust t
  have hbase : ofRules rules ["."] none = .ok base := rfl
  have hne : t.children ≠ [] := by simp [t, Tree.children]
  have hkeeps : KeepsInside adjust t.children := fun i hi => Nat.lt_of_le_of_lt (Nat.sub_le i 1) hi
  have hrules : (rules.get? (ruleCategory t)).or
      ((none : Option Directive.Written).map ([·])) = some ws := by
    have hcategory : ruleCategory t = "NP" := by decide +kernel
    rw [hcategory]
    rfl
  exact ⟨hbase, hne, hkeeps, hrules, chosenHead_settles hbase hne hkeeps hrules⟩

end HeadFinder

end HeadPercolation
