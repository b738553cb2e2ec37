import HeadPercolation.Proofs.Pattern.Matching
import HeadPercolation.Proofs.Results

namespace HeadPercolation.Pattern

-- The captures that a term can make at a node. A negated term makes none.
def Term.MayCapture (term : Term) (n : Node) (entry : String × Node) : Prop :=
  match term with
  | .item _ => False
  | .anyOf alternatives => ∃ term, ∃ _ : term ∈ alternatives, term.MayCapture n entry
  | .containing term reach _ contents =>
    term.MayCapture n entry ∨
      ∃ nodes ∈ reach.lists n, ∃ m ∈ nodes, ∃ c, ∃ _ : c ∈ contents, c.MayCapture m entry
  | .capture term name => entry = (name, n) ∨ term.MayCapture n entry
  | .negated _ => False
  | .repeated term _ => term.MayCapture n entry

mutual

-- Does a match of the term capture some node by the name? A term that may be left out captures
-- nothing for sure.
def Term.binds (name : String) : Term → Bool
  | .item _ => false
  | .anyOf alternatives => allBind name alternatives
  | .containing term _ _ contents => term.binds name || someBinds name contents
  | .capture term name' => name == name' || term.binds name
  | .negated _ => false
  | .repeated _ _ => false

def allBind (name : String) : List Term → Bool
  | [] => true
  | term :: terms => term.binds name && allBind name terms

def someBinds (name : String) : List Term → Bool
  | [] => false
  | term :: terms => term.binds name || someBinds name terms

end

-- Later captures are earlier ones and some more, each of which satisfies `p`.
def Extends (p : String × Node → Prop) (before after : Captures) : Prop :=
  ∃ taken, after = taken ++ before ∧ ∀ entry ∈ taken, p entry

section Extends

variable {p q : String × Node → Prop} {a b c : Captures}

theorem Extends.refl (p : String × Node → Prop) (a : Captures) : Extends p a a :=
  ⟨[], rfl, by simp⟩

theorem Extends.trans (h : Extends p a b) (h' : Extends p b c) : Extends p a c := by
  obtain ⟨taken, rfl, htaken⟩ := h
  obtain ⟨later, rfl, hlater⟩ := h'
  refine ⟨later ++ taken, by rw [List.append_assoc], fun entry hentry => ?_⟩
  rcases List.mem_append.mp hentry with hmem | hmem
  · exact hlater entry hmem
  · exact htaken entry hmem

theorem Extends.mono (h : Extends p a b) (hpq : ∀ entry, p entry → q entry) : Extends q a b := by
  obtain ⟨taken, rfl, htaken⟩ := h
  exact ⟨taken, rfl, fun entry hentry => hpq entry (htaken entry hentry)⟩

theorem Extends.cons {entry : String × Node} (h : Extends p a b) (hp : p entry) :
    Extends p a (entry :: b) := by
  obtain ⟨taken, rfl, htaken⟩ := h
  exact ⟨entry :: taken, rfl, List.forall_mem_cons.mpr ⟨hp, htaken⟩⟩

-- What has been captured stays so, though by another node perhaps.
theorem Extends.isSome_lookup (h : Extends p a b) {name : String}
    (ha : (a.lookup name).isSome) : (b.lookup name).isSome := by
  obtain ⟨taken, rfl, -⟩ := h
  rw [List.lookup_append, Option.isSome_or, ha, Bool.or_true]

end Extends

-- A test of some nodes that captures what `p` says of a node.
def Captures.Adds (nodes : List Node) (test : Node → Captures → Outcome)
    (p : Node → String × Node → Prop) : Prop :=
  ∀ n ∈ nodes, ∀ before after, test n before = .ok (some after) → Extends (p n) before after

section Shares

variable {test : Node → Captures → Outcome} {p : Node → String × Node → Prop}
  {nodes : List Node} {before after : Captures} {rs : List Remainder} {r : Remainder}

theorem thread_extends (htest : Captures.Adds nodes test p)
    (h : thread test nodes before = .ok (some after)) :
    Extends (fun entry => ∃ n ∈ nodes, p n entry) before after := by
  induction nodes generalizing before with
  | nil =>
      cases h
      exact Extends.refl _ _
  | cons n ns ih =>
      obtain ⟨taken, hn, h⟩ := thread_cons_eq_ok_some.mp h
      obtain ⟨hfirst, hothers⟩ := List.forall_mem_cons.mp htest
      apply ((hfirst before taken hn).mono fun entry he => ⟨n, List.mem_cons_self, he⟩).trans
      apply (ih hothers h).mono
      rintro entry ⟨m, hm, he⟩
      exact ⟨m, List.mem_cons_of_mem n hm, he⟩

theorem sharesOf_extends {times : Option Repetition} (htest : Captures.Adds nodes test p)
    (h : sharesOf times test nodes before = .ok rs) (hr : r ∈ rs) :
    r.nodes ⊆ nodes ∧ Extends (fun entry => ∃ n ∈ nodes, p n entry) before r.captures := by
  obtain ⟨count, -, hshare⟩ := ((sharesOf_areShares h).mem r).mp hr
  have hfront : ∀ n ∈ nodes.take count, n ∈ nodes := fun n => List.mem_of_mem_take
  refine ⟨?_, (thread_extends (fun n hn => htest n (hfront n hn)) hshare.run).mono ?_⟩
  · rw [hshare.nodes_eq]
    exact List.drop_subset count nodes
  · rintro entry ⟨n, hn, he⟩
    exact ⟨n, hfront n hn, he⟩

end Shares

section Runs

variable {context : Context} {terms : List Term} {nodes : List Node} {before after : Captures}

-- What the terms of a set or a sequence capture among the nodes.
def MayCaptureAmong (terms : List Term) (nodes : List Node) (entry : String × Node) : Prop :=
  ∃ n ∈ nodes, ∃ term ∈ terms, term.MayCapture n entry

theorem MayCaptureAmong.cons {nodes' : List Node} {entry : String × Node}
    (h : MayCaptureAmong terms nodes' entry) (hnodes : nodes' ⊆ nodes) (term : Term) :
    MayCaptureAmong (term :: terms) nodes entry := by
  obtain ⟨m, hm, other, ho, he⟩ := h
  exact ⟨m, hnodes hm, other, List.mem_cons_of_mem term ho, he⟩

theorem runSet_extends
    (hterms : ∀ term ∈ terms, Captures.Adds nodes (term.run context) term.MayCapture)
    (h : runSet context terms nodes before = .ok (some after)) :
    Extends (MayCaptureAmong terms nodes) before after := by
  induction terms generalizing before with
  | nil =>
      cases h
      exact Extends.refl _ _
  | cons term terms ih =>
      rw [runSet] at h
      obtain ⟨outcome, hfind, h⟩ := bind_eq_ok.mp h
      cases outcome with
      | none => cases h
      | some captures =>
          obtain ⟨n, hn, hrun⟩ := exists_of_findSomeM?_eq_ok hfind
          have hfirst := hterms term List.mem_cons_self n hn before captures hrun
          have hrest := ih (fun other ho => hterms other (List.mem_cons_of_mem term ho)) h
          apply (hfirst.mono fun entry he => ⟨n, hn, term, List.mem_cons_self, he⟩).trans
          exact hrest.mono fun entry he => he.cons (List.Subset.refl nodes) term

theorem runSequence_extends {anchored : Bool}
    (hterms : ∀ term ∈ terms, Captures.Adds nodes (term.run context) term.MayCapture)
    (h : runSequence context anchored terms nodes before = .ok (some after)) :
    Extends (MayCaptureAmong terms nodes) before after := by
  induction terms generalizing nodes before with
  | nil =>
      simp only [runSequence] at h
      split at h
      · cases h
      · cases h
        exact Extends.refl _ _
  | cons term terms ih =>
      rw [runSequence] at h
      obtain ⟨remainders, hshares, h⟩ := bind_eq_ok.mp h
      obtain ⟨r, hr, hrun⟩ := exists_of_findSomeM?_eq_ok h
      obtain ⟨hsub, hfirst⟩ := sharesOf_extends (hterms term List.mem_cons_self) hshares hr
      have hothers : ∀ other ∈ terms, Captures.Adds r.nodes (other.run context) other.MayCapture :=
        fun other ho n hn => hterms other (List.mem_cons_of_mem term ho) n (hsub hn)
      have hrest := ih hothers hrun
      have hself : ∀ entry, (∃ n ∈ nodes, term.MayCapture n entry) →
          MayCaptureAmong (term :: terms) nodes entry := by
        rintro entry ⟨n, hn, he⟩
        exact ⟨n, hn, term, List.mem_cons_self, he⟩
      exact (hfirst.mono hself).trans (hrest.mono fun entry he => he.cons hsub term)

-- Looks for the contents of brackets in a list of nodes.
def runContents (context : Context) (contents : List Term) :
    Shape → List Node → Captures → Outcome
  | .set => runSet context contents
  | .sequence anchored => runSequence context anchored contents

theorem runContents_extends {shape : Shape}
    (hterms : ∀ term ∈ terms, Captures.Adds nodes (term.run context) term.MayCapture)
    (h : runContents context terms shape nodes before = .ok (some after)) :
    Extends (MayCaptureAmong terms nodes) before after := by
  cases shape with
  | set => exact runSet_extends hterms h
  | sequence anchored => exact runSequence_extends hterms h

-- The first list of nodes in which the contents are found counts.
theorem run_containing_eq_ok_some {term : Term} {reach : Reach} {shape : Shape} {n : Node}
    (h : (Term.containing term reach shape terms).run context n before = .ok (some after)) :
    ∃ captures, term.run context n before = .ok (some captures) ∧
      ∃ front nodes back, reach.lists n = front ++ nodes :: back ∧
        (∀ others ∈ front, runContents context terms shape others captures = .ok none) ∧
          runContents context terms shape nodes captures = .ok (some after) := by
  rw [Term.run] at h
  obtain ⟨outcome, hn, h⟩ := bind_eq_ok.mp h
  cases outcome with
  | none => cases h
  | some captures =>
      refine ⟨captures, hn, ?_⟩
      cases shape with
      | set => exact findSomeM?_eq_ok_some.mp h
      | sequence anchored => exact findSomeM?_eq_ok_some.mp h

-- A match adds to the captures what its term can capture at the node, and nothing else.
theorem Term.run_extends {term : Term} {n : Node}
    (h : term.run context n before = .ok (some after)) :
    Extends (term.MayCapture n) before after := by
  induction term generalizing n before after with
  | item i =>
      rw [Term.run] at h
      obtain ⟨value, -, h⟩ := bind_eq_ok.mp h
      cases value with
      | false => cases h
      | true =>
          cases h
          exact Extends.refl _ _
  | anyOf alternatives ih =>
      rw [Term.run, runAnyOf_eq] at h
      obtain ⟨term, hterm, hrun⟩ := exists_of_findSomeM?_eq_ok h
      apply (ih term hterm hrun).mono
      intro entry he
      rw [Term.MayCapture]
      exact ⟨term, hterm, he⟩
  | containing term reach shape contents ih ihc =>
      obtain ⟨captures, hn, front, nodes, back, hlists, -, hcontents⟩ :=
        run_containing_eq_ok_some h
      have hnodes : nodes ∈ reach.lists n := by simp [hlists]
      have hadds : ∀ c ∈ contents, Captures.Adds nodes (c.run context) c.MayCapture :=
        fun c hc _ _ _ _ hrun => ihc c hc hrun
      have houter := ih hn
      have hinner := runContents_extends hadds hcontents
      refine (houter.mono fun entry he => ?_).trans (hinner.mono ?_)
      · rw [Term.MayCapture]
        exact Or.inl he
      · rintro entry ⟨m, hm, c, hc, he⟩
        rw [Term.MayCapture]
        exact Or.inr ⟨nodes, hnodes, m, hm, c, hc, he⟩
  | capture term name ih =>
      rw [Term.run] at h
      obtain ⟨outcome, hn, h⟩ := bind_eq_ok.mp h
      cases outcome with
      | none => cases h
      | some captures =>
          cases h
          have hinner : Extends ((term.capture name).MayCapture n) before captures :=
            (ih hn).mono fun entry he => by
              rw [Term.MayCapture]
              exact Or.inr he
          apply hinner.cons
          rw [Term.MayCapture]
          exact Or.inl rfl
  | negated term ih =>
      rw [Term.run] at h
      obtain ⟨outcome, -, h⟩ := bind_eq_ok.mp h
      cases outcome with
      | some captures => cases h
      | none =>
          cases h
          exact Extends.refl _ _
  | repeated term times ih =>
      rw [Term.run] at h
      apply (ih h).mono
      intro entry he
      rw [Term.MayCapture]
      exact he

end Runs

section Binds

variable {context : Context} {name : String} {terms : List Term} {nodes : List Node}
  {before after : Captures}

theorem allBind_iff : allBind name terms = true ↔ ∀ term ∈ terms, term.binds name = true := by
  induction terms with
  | nil => simp [allBind]
  | cons term terms ih => simp [allBind, ih]

theorem someBinds_iff : someBinds name terms = true ↔ ∃ term ∈ terms, term.binds name = true := by
  induction terms with
  | nil => simp [someBinds]
  | cons term terms ih => simp [someBinds, ih]

-- If the term binds a name, then each match of it does.
def Term.Secures (context : Context) (name : String) (term : Term) : Prop :=
  term.binds name = true → ∀ n before after, term.run context n before = .ok (some after) →
    (after.lookup name).isSome

theorem runSet_binds (hterms : ∀ term ∈ terms, term.Secures context name)
    (hsome : ∃ term ∈ terms, term.binds name = true)
    (h : runSet context terms nodes before = .ok (some after)) : (after.lookup name).isSome := by
  induction terms generalizing before with
  | nil => simp at hsome
  | cons term terms ih =>
      rw [runSet] at h
      obtain ⟨outcome, hfind, h⟩ := bind_eq_ok.mp h
      cases outcome with
      | none => cases h
      | some captures =>
          obtain ⟨n, hn, hrun⟩ := exists_of_findSomeM?_eq_ok hfind
          by_cases hbinds : term.binds name = true
          · have hfirst := hterms term List.mem_cons_self hbinds n before captures hrun
            have hrest := runSet_extends (fun _ _ _ _ _ _ hrun => Term.run_extends hrun) h
            exact hrest.isSome_lookup hfirst
          · have hothers : ∃ term ∈ terms, term.binds name = true := by
              simpa [hbinds] using hsome
            exact ih (fun other ho => hterms other (List.mem_cons_of_mem term ho)) hothers h

theorem runSequence_binds {anchored : Bool} (hterms : ∀ term ∈ terms, term.Secures context name)
    (hsome : ∃ term ∈ terms, term.binds name = true)
    (h : runSequence context anchored terms nodes before = .ok (some after)) :
    (after.lookup name).isSome := by
  induction terms generalizing nodes before with
  | nil => simp at hsome
  | cons term terms ih =>
      rw [runSequence] at h
      obtain ⟨remainders, hshares, h⟩ := bind_eq_ok.mp h
      obtain ⟨r, hr, hrun⟩ := exists_of_findSomeM?_eq_ok h
      by_cases hbinds : term.binds name = true
      · have honce : term.repetition? = none := by
          cases term with
          | repeated inner times => simp [Term.binds] at hbinds
          | _ => rfl
        rw [honce] at hshares
        obtain ⟨count, hcount, hshare⟩ := ((sharesOf_areShares hshares).mem r).mp hr
        obtain rfl : count = 1 := hcount
        obtain ⟨n, -, htest⟩ := isShare_one.mp hshare
        have hfirst := hterms term List.mem_cons_self hbinds n before r.captures htest
        have hrest := runSequence_extends (fun _ _ _ _ _ _ hrun => Term.run_extends hrun) hrun
        exact hrest.isSome_lookup hfirst
      · have hothers : ∃ term ∈ terms, term.binds name = true := by
          simpa [hbinds] using hsome
        exact ih (fun other ho => hterms other (List.mem_cons_of_mem term ho)) hothers hrun

theorem runContents_binds {shape : Shape} (hterms : ∀ term ∈ terms, term.Secures context name)
    (hsome : ∃ term ∈ terms, term.binds name = true)
    (h : runContents context terms shape nodes before = .ok (some after)) :
    (after.lookup name).isSome := by
  cases shape with
  | set => exact runSet_binds hterms hsome h
  | sequence anchored => exact runSequence_binds hterms hsome h

theorem Term.run_binds (context : Context) (name : String) (term : Term) :
    term.Secures context name := by
  induction term with
  | item i =>
      intro hbinds
      simp [Term.binds] at hbinds
  | anyOf alternatives ih =>
      intro hbinds n before after h
      rw [Term.run, runAnyOf_eq] at h
      rw [Term.binds, allBind_iff] at hbinds
      obtain ⟨term, hterm, hrun⟩ := exists_of_findSomeM?_eq_ok h
      exact ih term hterm (hbinds term hterm) n before after hrun
  | containing term reach shape contents ih ihc =>
      intro hbinds n before after h
      rw [Term.binds, Bool.or_eq_true, someBinds_iff] at hbinds
      obtain ⟨captures, hn, -, nodes, -, -, -, hcontents⟩ := run_containing_eq_ok_some h
      rcases hbinds with hterm | hsome
      · have hfirst := ih hterm n before captures hn
        have hrest := runContents_extends (fun _ _ _ _ _ _ hrun => Term.run_extends hrun) hcontents
        exact hrest.isSome_lookup hfirst
      · exact runContents_binds ihc hsome hcontents
  | capture term name' ih =>
      intro hbinds n before after h
      rw [Term.run] at h
      obtain ⟨outcome, hn, h⟩ := bind_eq_ok.mp h
      cases outcome with
      | none => cases h
      | some captures =>
          cases h
          rw [Term.binds, Bool.or_eq_true] at hbinds
          rw [List.lookup_cons]
          cases hname : name == name' with
          | true => rfl
          | false =>
              rw [hname] at hbinds
              exact ih (by simpa using hbinds) n before captures hn
  | negated term ih =>
      intro hbinds
      simp [Term.binds] at hbinds
  | repeated term times ih =>
      intro hbinds
      simp [Term.binds] at hbinds

-- A match of a pattern that binds a name has a capture of that name, which is one that a term of
-- the pattern can make.
theorem matchCaptures_lookup {pattern : String} (hcompile : compile pattern = .ok terms)
    (hnames : context.Supports (macrosOf terms)) (hbinds : someBinds name terms = true)
    (n : Node) :
    ∃ captured, matchCaptures context pattern n = .ok captured ∧
      ∀ captures, captured = some captures → ∃ m, captures.lookup name = some m ∧
        ∃ term ∈ terms, term.MayCapture n (name, m) := by
  have hdecides := runSet_decides (fun term hm => Term.run_decides (hnames.of_mem hm)) [n] []
  obtain ⟨captured, hok, -⟩ := hdecides
  refine ⟨captured, matchCaptures_of_runSet hcompile hok, ?_⟩
  rintro captures rfl
  have hsome := runSet_binds (fun term _ => Term.run_binds context name term)
    (someBinds_iff.mp hbinds) hok
  obtain ⟨m, hm⟩ := Option.isSome_iff_exists.mp hsome
  obtain ⟨taken, htaken, hmay⟩ := runSet_extends (fun _ _ _ _ _ _ hrun => Term.run_extends hrun) hok
  obtain ⟨newer, older, heq, -⟩ := List.lookup_eq_some_iff.mp hm
  have hmem : (name, m) ∈ taken := by
    rw [List.append_nil] at htaken
    rw [← htaken, heq]
    exact List.mem_append_right newer List.mem_cons_self
  obtain ⟨n', hn', term, hterm, hcapture⟩ := hmay (name, m) hmem
  rw [List.mem_singleton.mp hn'] at hcapture
  exact ⟨m, hm, term, hterm, hcapture⟩

end Binds

end HeadPercolation.Pattern
