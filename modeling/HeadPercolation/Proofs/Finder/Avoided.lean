import HeadPercolation.Proofs.Finder.Plain

namespace HeadPercolation

-- Does the directive pass over all children of the given categories? It does if it looks for none
-- of them, or for what is none of them.
def Directive.PassesOver (avoid : List String) (d : Directive) : Prop :=
  match d.direction.selection with
  | .ranked | .listed => ∀ category ∈ d.categories, category ∉ avoid
  | .unlisted => avoid ⊆ d.categories

-- A finder none of whose directives can choose a child of an avoided category.
structure HeadFinder.PassesOver (hf : HeadFinder) : Prop where
  rules : ∀ category ds, hf.rules.get? category = some ds → ∀ d ∈ ds, d.PassesOver hf.avoid
  defaultRule : ∀ d, hf.defaultRule = some d → d.PassesOver hf.avoid

section Settles

variable {avoid : List String} {children : List Tree} {i : Nat} {s : Tree}

theorem Directive.Hits.not_mem_of_passesOver {d : Directive} (h : d.Hits children i)
    (hpasses : d.PassesOver avoid) (hs : children[i]? = some s) : s.basicCategory ∉ avoid := by
  unfold Directive.Hits at h
  unfold Directive.PassesOver at hpasses
  cases hselection : d.direction.selection with
  | ranked =>
      simp only [hselection] at h hpasses
      obtain ⟨before, category, after, hd, -, hn⟩ := h
      rw [hn.of_getElem? hs]
      exact hpasses category (by simp [hd])
  | listed =>
      simp only [hselection] at h hpasses
      exact hpasses s.basicCategory (h.of_getElem? hs)
  | unlisted =>
      simp only [hselection] at h hpasses
      exact fun hmem => h.of_getElem? hs (hpasses hmem)

-- An avoided child is left to the edge, where no other child is left.
theorem Settles.forall_mem_avoid {ds : List Directive} {calls : List Nat}
    (h : Settles avoid (fun i _ => i) children ds i calls)
    (hpasses : ∀ d ∈ ds, d.PassesOver avoid) (hs : children[i]? = some s)
    (hmem : s.basicCategory ∈ avoid) : ∀ kid ∈ children, kid.basicCategory ∈ avoid := by
  cases h with
  | @hit before d after _ hds hbefore hit =>
      have hd : d ∈ ds := by simp [hds]
      exact absurd hmem (hit.not_mem_of_passesOver (hpasses d hd) hs)
  | resort hnone hlast havoid hn => exact absurd hmem (hn.of_getElem? hs)
  | edge hnone hlast hall hn =>
      rcases hall with rfl | hall
      · cases hmem
      · exact hall

end Settles

namespace HeadFinder

variable {rules : Table (List Directive.Written)} {avoid : List String}
  {defaultRule : Option Directive.Written} {hf : HeadFinder}

theorem PassesOver.directives (h : hf.PassesOver) {category : String} {ds : List Directive}
    (hds : (hf.rules.get? category).or (hf.defaultRule.map ([·])) = some ds) :
    ∀ d ∈ ds, d.PassesOver hf.avoid := by
  cases hget : hf.rules.get? category with
  | some ds' =>
      obtain rfl : ds' = ds := by simpa [hget] using hds
      exact h.rules category ds' hget
  | none =>
      obtain ⟨d, hdefault, rfl⟩ : ∃ d, hf.defaultRule = some d ∧ [d] = ds := by
        simpa [hget] using hds
      simpa using h.defaultRule d hdefault

-- If no directive can choose a child of an avoided category, then such a child is the head of a
-- node with a rule only where all of its children are avoided.
theorem head_avoided (h : ofRules rules avoid defaultRule = .ok hf) (hpasses : hf.PassesOver)
    {t : Tree} (hchoice : 2 ≤ t.children.length)
    (hrule : (rules.get? (ruleCategory t)).isSome ∨ defaultRule.isSome) :
    ∃ i s, t.children[i]? = some s ∧ (∀ parent, hf.head t parent = .ok [i]) ∧
      (s.basicCategory ∈ avoid → ∀ kid ∈ t.children, kid.basicCategory ∈ avoid) := by
  have hplain := isPlain_of_ofRules h
  have havoid : hf.avoid = avoid := congrArg HeadFinder.avoid (ofRules_eq_ok h).1
  obtain ⟨ws, hws⟩ : ∃ ws, (rules.get? (ruleCategory t)).or (defaultRule.map ([·])) = some ws := by
    rw [← Option.isSome_iff_exists, Option.isSome_or, Option.isSome_map, Bool.or_eq_true]
    exact hrule
  obtain ⟨ds, -, hne, hds⟩ := ofRules_directives h hws
  have hkeeps : KeepsInside hf.adjust t.children := by
    rw [hplain.adjust]
    exact fun i hi => hi
  have hchildren : t.children ≠ [] := List.ne_nil_of_length_pos (by omega)
  obtain ⟨i, calls, hok, hsettles, -⟩ := tableHead_settles hkeeps hchildren hne hds
  obtain ⟨s, hs⟩ : ∃ s, t.children[i]? = some s :=
    ⟨_, List.getElem?_eq_getElem (hsettles.lt hkeeps)⟩
  rw [hplain.adjust, havoid] at hsettles
  refine ⟨i, s, hs, fun parent => ?_, ?_⟩
  · rw [head_of_two_le_length (congrFun hplain.marked t) hchoice]
    exact chosenHead_of_tableHead (congrFun₂ hplain.special t parent) hok
  · exact hsettles.forall_mem_avoid (havoid ▸ hpasses.directives hds) hs

-- No directive chooses a child, and the last resort passes over the full stop.
theorem head_avoided_resort :
    let rules : Table (List Directive.Written) :=
      .ofList [("W", [⟨"right", ["C"]⟩, ⟨"rightexcept", [".", "A"]⟩])]
    let hf : HeadFinder :=
      { rules := .ofList [("W", [.right ["C"], .rightUnlisted [".", "A"]])], avoid := ["."] }
    let t : Tree := .node "W-SBJ" [.node "A" [.leaf "a"], .node "." [.leaf "."]]
    ofRules rules ["."] none = .ok hf ∧ hf.PassesOver ∧ 2 ≤ t.children.length ∧
      ((rules.get? (ruleCategory t)).isSome ∨ (none : Option Directive.Written).isSome) ∧
        ∃ i s, t.children[i]? = some s ∧ (∀ parent, hf.head t parent = .ok [i]) ∧
          (s.basicCategory ∈ ["."] → ∀ kid ∈ t.children, kid.basicCategory ∈ ["."]) := by
  intro rules hf t
  have hrules : ofRules rules ["."] none = .ok hf := rfl
  have hentries : hf.rules.entries = [("W", [.right ["C"], .rightUnlisted [".", "A"]])] := rfl
  have hpasses : hf.PassesOver := by
    refine ⟨fun category ds hds => ?_, nofun⟩
    have hmem := Table.get?_eq_some_iff.mp hds
    rw [hentries, List.mem_singleton] at hmem
    cases hmem
    simp [Directive.PassesOver, hf]
  have hchoice : 2 ≤ t.children.length := Nat.le_refl 2
  have hrule : (rules.get? (ruleCategory t)).isSome := by decide +kernel
  exact ⟨hrules, hpasses, hchoice, .inl hrule, head_avoided hrules hpasses hchoice (.inl hrule)⟩

end HeadFinder

end HeadPercolation
