import HeadPercolation.Config.Packaged.Settings
import HeadPercolation.Proofs.Category.Tags
import HeadPercolation.Proofs.Pattern.Greedy
import HeadPercolation.Proofs.Semantic.Patterns

namespace HeadPercolation

open Pattern

namespace Tree

-- A node of this category above the leaves.
def IsA (category : String) (t : Tree) : Prop :=
  t.isLeaf = false ∧ t.basicCategory = category

-- A node of this category with only one child.
def IsOver (category : String) (p : Tree → Prop) (t : Tree) : Prop :=
  t.IsA category ∧ ∃ kid, t.children = [kid] ∧ p kid

-- A leaf with one of the words, but for case.
def IsWord (words : List String) (t : Tree) : Prop :=
  t.isLeaf = true ∧ ∃ word ∈ words, Text.sameButForCase word t.label = true

end Tree

-- Does a tree that satisfies `p` stand there?
def StandsAt (p : Tree → Prop) (ts : List Tree) (i : Nat) : Prop :=
  ∃ s, ts[i]? = some s ∧ p s

-- A coordinator and an adverb that make up a conjunction.
structure WordPair where
  coordinators : List String
  adverbs : List String
  -- May the adverb be a phrase of its own?
  phrasal : Bool

def wordPairs : List WordPair := [
  ⟨["but", "and"], ["not"], false⟩,
  ⟨["but"], ["also", "rather"], true⟩,
  ⟨["and"], ["yet"], true⟩]

namespace WordPair

def IsCoordinator (pair : WordPair) (t : Tree) : Prop :=
  t.IsOver "CC" (Tree.IsWord pair.coordinators)

def IsAdverb (pair : WordPair) (t : Tree) : Prop :=
  t.IsOver "RB" (Tree.IsWord pair.adverbs) ∨
    pair.phrasal = true ∧ t.IsOver "ADVP" (Tree.IsOver "RB" (Tree.IsWord pair.adverbs))

-- Does the coordinator stand there, and the adverb right after it?
def Joins (pair : WordPair) (ts : List Tree) (i : Nat) : Prop :=
  StandsAt pair.IsCoordinator ts i ∧ StandsAt pair.IsAdverb ts (i + 1)

-- Does the adverb of the pair stand there, right after the coordinator?
def EndsAt (pair : WordPair) (ts : List Tree) (i : Nat) : Prop :=
  ∃ j, i = j + 1 ∧ pair.Joins ts j

end WordPair

namespace SemanticFinder

-- Does an adjective phrase follow a copula that follows a question word?
def LinksAdjective (f : SemanticFinder) (ts : List Tree) : Prop :=
  ∃ w, StandsAt (Tree.IsA "WHNP") ts w ∧
    ∃ c, w < c ∧ StandsAt (f.isCopula ·) ts c ∧ ∃ a, c < a ∧ StandsAt (Tree.IsA "ADJP") ts a

def IsLinkedAdjective (f : SemanticFinder) (ts : List Tree) (i : Nat) : Prop :=
  f.LinksAdjective ts ∧ StandsAt (Tree.IsA "ADJP") ts i

-- A question word that a copula links to the noun phrase right after the copula. No adjective
-- phrase may follow the latter.
def IsLinkedNoun (f : SemanticFinder) (ts : List Tree) (i : Nat) : Prop :=
  StandsAt (Tree.IsA "WHNP") ts i ∧
    ∃ c, i < c ∧ StandsAt (f.isCopula ·) ts c ∧ StandsAt (Tree.IsA "NP") ts (c + 1) ∧
      ∀ a, c + 1 < a → ¬StandsAt (Tree.IsA "ADJP") ts a

end SemanticFinder

-- The last place of the first kind that has any.
inductive LastOfFirst : List (Nat → Prop) → Option Nat → Prop where
  | nothing : LastOfFirst [] none
  | last {p : Nat → Prop} {ps : List (Nat → Prop)} {i : Nat} :
      IsGreatest {j | p j} i → LastOfFirst (p :: ps) (some i)
  | next {p : Nat → Prop} {ps : List (Nat → Prop)} {place : Option Nat} :
      (∀ i, ¬p i) → LastOfFirst ps place → LastOfFirst (p :: ps) place

section Terms

variable (context : Context) {child : Term} {p : Tree → Prop}

theorem says_tagged (label : String) (h : IsPlainTag label) :
    (Term.tagged label).Says context (Tree.IsA label) :=
  (says_atom (.tag label)).congr fun _ => Tree.matchesTag_iff h

theorem says_word (text : String) : (Term.word text).Says context (Tree.IsWord [text]) :=
  (says_atom (.leaf text)).congr fun t => by simp [Atom.holds, Tree.IsWord]

theorem says_words (words : List String) :
    (Term.anyOf (words.map Term.word)).Says context (Tree.IsWord words) where
  once := rfl
  holds t := by
    simp [Term.Holds, Item.Holds, Atom.holds, Tree.IsWord, and_left_comm (b := t.isLeaf = true)]
  silent _ _ := by simp [Term.MayCapture]
  names name hname := by simp [Term.macros, mem_macrosOf] at hname

variable {context}

theorem says_holding {label : String} (h : IsPlainTag label) (hchild : child.Says context p) :
    (Term.holding (.tagged label) child).Says context (Tree.IsOver label p) where
  once := rfl
  holds t := by
    rw [Term.Holds, (says_tagged context label h).holds, Tree.IsOver]
    refine and_congr_right fun _ => ?_
    simp only [List.map_cons, List.map_nil, List.prod_cons, List.prod_nil, mul_one, hchild.once,
      mem_nodesOf_none, Reach.Offers, hchild.holds, forall_const]
    constructor
    · rintro ⟨nodes, rfl, front, rest, heq, rfl, kid, hkid, rfl⟩
      exact ⟨kid, by simpa using heq, hkid⟩
    · rintro ⟨kid, hkids, hkid⟩
      exact ⟨_, rfl, [kid], [], by simpa using hkids, rfl, kid, hkid, rfl⟩
  silent n entry := by simp [Term.MayCapture, hchild.silent]
  names := by simpa [Term.macros, macrosOf] using hchild.names

theorem takes_adverbTerm (hchild : child.Says context p) :
    (adverbTerm child).Takes context
      (fun t => t.IsOver "RB" p ∨ t.IsOver "ADVP" (Tree.IsOver "RB" p)) fun n => [("head", n)] := by
  have hadverb : (Term.holding (.tagged "RB") child).Says context (Tree.IsOver "RB" p) :=
    says_holding (by decide) hchild
  exact (hadverb.capture "head").or ((says_holding (by decide) hadverb).capture "head")

end Terms

section Heads

variable {context : Context} {t : Tree}

theorem exists_getElem?_children_iff {p : Tree → Prop} {i : Nat} :
    (∃ n, (Node.root t).children[i]? = some n ∧ p n.tree) ↔ StandsAt p t.children i := by
  rw [Node.getElem?_children, StandsAt]
  simp [Node.root]

theorem StandsAt.lt {p : Tree → Prop} {ts : List Tree} {i : Nat} (h : StandsAt p ts i) :
    i < ts.length := by
  obtain ⟨s, hs, -⟩ := h
  exact (List.getElem?_eq_some_iff.mp hs).1

-- Matching the node captures the last child whose place satisfies `p` as its head.
def HeadsLast (context : Context) (t : Tree) (p : Nat → Prop) (pattern : String) : Prop :=
  (matchCaptures context pattern (.root t) = .ok none ∧ ∀ i, ¬p i) ∨
    ∃ captures i n, matchCaptures context pattern (.root t) = .ok (some captures) ∧
      captures.lookup "head" = some n ∧ n.path = [i] ∧ IsGreatest {j | p j} i

-- The terms of a pattern for the children of a node capture the last of them whose place
-- satisfies `p`.
theorem headsLast_of_gives {label pattern : String} {contents : List Term} {anchored : Bool}
    {p : Nat → Prop} (hlabel : IsPlainTag label) (hcategory : t.basicCategory = label)
    (hcompile : compile pattern =
      .ok [.containing (.tagged label) .children (.sequence anchored) contents])
    (hbound : ∀ i, p i → i < t.children.length)
    (hcontents : Gives (runSequence context anchored contents (Node.root t).children [])
      fun after => ∃ i n, IsGreatest {j | p j} i ∧ (Node.root t).children[i]? = some n ∧
        after = [("head", n)]) : HeadsLast context t p pattern := by
  have hterm := (says_tagged context label hlabel).takes
  obtain ⟨captured, hok, hcaptured⟩ :=
    matchCaptures_gives hcompile (run_containing_gives hterm hcontents)
  cases captured with
  | none =>
      refine Or.inl ⟨hok, fun i hi => ?_⟩
      obtain ⟨k, hk⟩ := exists_last hbound (Nat.zero_le i) hi
      have hlast : IsGreatest {j | p j} k := by simpa using hk
      have hlt : k < (Node.root t).tree.children.length := hbound k hlast.1
      have hinner : t.isLeaf = false := by
        cases t with
        | leaf word => exact absurd hlt (Nat.not_lt_zero k)
        | node label ts => rfl
      cases (hcaptured _).mpr
        ⟨⟨hinner, hcategory⟩, k, _, hlast, Node.getElem?_children_of_lt hlt, rfl⟩
  | some captures =>
      obtain ⟨-, i, n, hi, hn, rfl⟩ := (hcaptured captures).mp rfl
      refine Or.inr ⟨_, i, n, hok, rfl, ?_, hi⟩
      rw [Node.getElem?_children] at hn
      obtain ⟨s, -, rfl⟩ := Option.map_eq_some_iff.mp hn
      rfl

-- The first pattern that matches decides.
theorem patternHead_lastOfFirst {patterns : List String} {ps : List (Nat → Prop)}
    (h : List.Forall₂ (HeadsLast context t) ps patterns) :
    ∃ place, patternHead context t patterns = .ok (place.map ([·])) ∧ LastOfFirst ps place := by
  induction h with
  | nil => exact ⟨none, rfl, .nothing⟩
  | cons hpattern _ ih =>
      obtain ⟨hnone, hp⟩ | ⟨captures, i, n, hsome, hhead, hpath, hi⟩ := hpattern
      · obtain ⟨place, hplace, hrest⟩ := ih
        exact ⟨place, by rw [patternHead, hnone]; exact hplace, .next hp hrest⟩
      · refine ⟨some i, ?_, .last hi⟩
        rw [patternHead, hsome]
        simp [Except.mapError, bind, Except.bind, pure, Except.pure, hhead, hpath]

end Heads

section Children

variable {context : Context} {anchored : Bool} {t : Tree} {term : Term} {terms : List Term}
  {p : Tree → Prop} {q : Captures → Prop} {captures : Captures} {i : Nat}

theorem length_children_root : (Node.root t).children.length = t.children.length := by
  simp [Node.children, Node.root]

theorem says_gives {a : Prop} (hterm : term.Says context p)
    (hrest : Gives
      (runSequence context anchored terms ((Node.root t).children.drop (i + 1)) captures)
      fun after => a ∧ q after) :
    Gives (runSequence context anchored (term :: terms) ((Node.root t).children.drop i) captures)
      fun after => (StandsAt p t.children i ∧ a) ∧ q after := by
  refine (runSequence_once_gives hterm.takes fun _ => hrest).congr fun after => ?_
  rw [← exists_getElem?_children_iff]
  simp only [← and_assoc, exists_and_right]

-- The node there is captured if the terms after it can hold.
theorem takes_gives {a : Prop} {name : String} (hterm : term.Takes context p fun n => [(name, n)])
    (hrest : ∀ captures, Gives
      (runSequence context anchored terms ((Node.root t).children.drop (i + 1)) captures)
      fun after => a ∧ after = captures) :
    Gives (runSequence context anchored (term :: terms) ((Node.root t).children.drop i) captures)
      fun after => (StandsAt p t.children i ∧ a) ∧
        ∃ n, (Node.root t).children[i]? = some n ∧ after = (name, n) :: captures := by
  refine (runSequence_once_gives hterm fun n => hrest _).congr fun after => ?_
  rw [← exists_getElem?_children_iff]
  constructor
  · rintro ⟨n, hn, hp, ha, rfl⟩
    exact ⟨⟨⟨n, hn, hp⟩, ha⟩, n, hn, rfl⟩
  · rintro ⟨⟨⟨n, hn, hp⟩, ha⟩, m, hm, rfl⟩
    cases hn.symm.trans hm
    exact ⟨n, hn, hp, ha, rfl⟩

theorem takes_last_gives {name : String} (hterm : term.Takes context p fun n => [(name, n)]) :
    Gives (runSequence context false [term] ((Node.root t).children.drop i) captures)
      fun after => StandsAt p t.children i ∧
        ∃ n, (Node.root t).children[i]? = some n ∧ after = (name, n) :: captures := by
  have hrest : ∀ captures, Gives
      (runSequence context false [] ((Node.root t).children.drop (i + 1)) captures)
      fun after => True ∧ after = captures := fun captures =>
    runSequence_nil_gives.congr fun after => by rw [true_and]
  exact (takes_gives hterm hrest).congr fun after => by rw [and_true]

-- The last term excludes what satisfies `p` from the nodes that are left.
theorem none_gives (hterm : term.Says context p) :
    Gives (runSequence context true [.repeated (.negated term) .zeroOrMore]
        ((Node.root t).children.drop i) captures)
      fun after => (∀ j, i ≤ j → ¬StandsAt p t.children j) ∧ after = captures := by
  refine (runSequence_all_gives hterm.negated).congr fun after => and_congr_left fun _ => ?_
  simp only [← exists_getElem?_children_iff, not_exists, not_and]
  constructor
  · intro h j hij n hn
    refine h n (List.mem_iff_getElem?.mpr ⟨j - i, ?_⟩)
    rw [List.getElem?_drop, Nat.add_sub_cancel' hij, hn]
  · intro h n hn
    obtain ⟨k, hk⟩ := List.mem_iff_getElem?.mp hn
    rw [List.getElem?_drop] at hk
    exact h (i + k) (Nat.le_add_right i k) n hk

theorem gap_says_gives {a : Nat → Prop} (hterm : term.Says context p)
    (hrest : ∀ j, Gives
      (runSequence context anchored terms ((Node.root t).children.drop j) captures)
      fun after => a j ∧ q after) :
    Gives (runSequence context anchored (.gap :: term :: terms)
        ((Node.root t).children.drop i) captures)
      fun after => (∃ j, i ≤ j ∧ StandsAt p t.children j ∧ a (j + 1)) ∧ q after :=
  runSequence_skip_gives (fun j => says_gives hterm (hrest (j + 1)))
    fun _ hj => length_children_root ▸ hj.1.lt

-- Of the places where the terms after a gap can hold, the last one counts.
theorem gap_takes_gives {r : Nat → Prop} {name : String} (shift : Nat)
    (hrest : ∀ j, Gives
      (runSequence context anchored terms ((Node.root t).children.drop j) captures)
      fun after => r j ∧
        ∃ n, (Node.root t).children[j + shift]? = some n ∧ after = (name, n) :: captures)
    (hbound : ∀ j, r j → j + shift < t.children.length) :
    Gives (runSequence context anchored (.gap :: terms) ((Node.root t).children.drop i) captures)
      fun after => ∃ j n, IsGreatest {j | i ≤ j ∧ r j} j ∧
        (Node.root t).children[j + shift]? = some n ∧ after = (name, n) :: captures := by
  have hplaces : ∀ j, (∃ after, r j ∧
      ∃ n, (Node.root t).children[j + shift]? = some n ∧ after = (name, n) :: captures) ↔ r j := by
    intro j
    constructor
    · rintro ⟨after, hj, -⟩
      exact hj
    · intro hj
      exact ⟨_, hj, _, Node.getElem?_children_of_lt (hbound j hj), rfl⟩
  have hlength : ∀ j, r j → j < (Node.root t).children.length := fun j hj => by
    have := hbound j hj
    rw [length_children_root]
    omega
  have hlast := runSequence_gap_gives (i := i) hrest fun j hj => hlength j ((hplaces j).mp hj)
  refine hlast.congr fun after => ?_
  simp only [hplaces]
  constructor
  · rintro ⟨j, hj, -, n, hn, rfl⟩
    exact ⟨j, n, hj, hn, rfl⟩
  · rintro ⟨j, n, hj, hn, rfl⟩
    exact ⟨j, hj, hj.1.2, n, hn, rfl⟩

end Children

section Conjunctions

variable {context : Context} {t : Tree} {pair : WordPair} {coordinator adverb : Term}
  {pattern : String}

-- The last pair of adjacent children decides.
theorem conjunctionTerm_headsLast (hcategory : t.basicCategory = "CONJP")
    (hcoordinator : coordinator.Says context (Tree.IsWord pair.coordinators))
    (hadverb : adverb.Takes context pair.IsAdverb fun n => [("head", n)])
    (hcompile : compile pattern = .ok [conjunctionTerm coordinator adverb]) :
    HeadsLast context t (pair.EndsAt t.children) pattern := by
  have hpair : ∀ j, Gives (runSequence context false [.holding (.tagged "CC") coordinator, adverb]
        ((Node.root t).children.drop j) [])
      fun after => pair.Joins t.children j ∧
        ∃ n, (Node.root t).children[j + 1]? = some n ∧ after = [("head", n)] := by
    intro j
    have hfirst : (Term.holding (.tagged "CC") coordinator).Says context pair.IsCoordinator :=
      says_holding (by decide) hcoordinator
    exact says_gives hfirst (takes_last_gives hadverb)
  have hbound : ∀ j, pair.Joins t.children j → j + 1 < t.children.length := fun j hj => hj.2.lt
  refine headsLast_of_gives (by decide) hcategory hcompile ?_ ?_
  · rintro i ⟨j, rfl, hj⟩
    exact hbound j hj
  · refine (gap_takes_gives (i := 0) 1 hpair hbound).congr fun after => ?_
    simp only [Nat.zero_le, true_and]
    constructor
    · rintro ⟨j, n, ⟨hj, hlast⟩, hn, rfl⟩
      refine ⟨j + 1, n, ⟨⟨j, rfl, hj⟩, ?_⟩, hn, rfl⟩
      rintro _ ⟨k, rfl, hk⟩
      exact Nat.succ_le_succ (hlast hk)
    · rintro ⟨_, n, ⟨⟨j, rfl, hj⟩, hlast⟩, hn, rfl⟩
      exact ⟨j, n, ⟨hj, fun k hk => Nat.le_of_succ_le_succ (hlast ⟨k, rfl, hk⟩)⟩, hn, rfl⟩

theorem conjunctionPatterns_headsLast (hcategory : t.basicCategory = "CONJP") :
    List.Forall₂ (HeadsLast context t) (wordPairs.map fun pair => pair.EndsAt t.children)
      conjunctionPatterns := by
  have hcompile := compile_conjunctionPatterns
  simp only [conjunctionPatterns, conjunctionTerms, List.map_cons, List.map_nil,
    List.cons.injEq] at hcompile
  obtain ⟨hnot, halso, hyet, -⟩ := hcompile
  have hword := says_word context
  have hwords := says_words context
  refine .cons (conjunctionTerm_headsLast hcategory (hwords _) ?_ hnot)
    (.cons (conjunctionTerm_headsLast hcategory (hword _) ?_ halso)
      (.cons (conjunctionTerm_headsLast hcategory (hword _) ?_ hyet) .nil))
  · exact ((says_holding (by decide) (hword "not")).capture "head").congr fun s => by
      simp [WordPair.IsAdverb]
  · exact (takes_adverbTerm (hwords ["also", "rather"])).congr fun s => by
      simp [WordPair.IsAdverb]
  · exact (takes_adverbTerm (hword "yet")).congr fun s => by simp [WordPair.IsAdverb]

end Conjunctions

namespace SemanticFinder

variable {f : SemanticFinder} {t : Tree} {pattern : String}

theorem says_copula :
    (Term.item (.named "copula")).Says f.context fun t => f.isCopula t = true where
  once := rfl
  holds t := by simp [Term.Holds, Item.Holds, context, Macro.answer, Answer.Says]
  silent _ _ := by simp [Term.MayCapture]
  names name hname := by
    obtain rfl := List.mem_singleton.mp hname
    exact ⟨_, rfl, fun s => Or.inl ⟨f.isCopula s, rfl⟩⟩

-- A question with an adjective phrase as its head.
theorem adjectiveQuestion_headsLast (hcategory : t.basicCategory = "SBARQ")
    (hcompile : compile pattern = .ok [.containing (.tagged "SBARQ") .children (.sequence false)
      [.gap, .tagged "WHNP", .gap, .item (.named "copula"), .gap,
        .capture (.tagged "ADJP") "head"]]) :
    HeadsLast f.context t (f.IsLinkedAdjective t.children) pattern := by
  -- wherever the last gap begins, it is the last adjective phrase of all that is captured, so the
  -- gaps before it only have to exist
  have hadjective := (says_tagged f.context "ADJP" (by decide)).capture "head"
  have hlast : ∀ i, Gives
      (runSequence f.context false [.gap, .capture (.tagged "ADJP") "head"]
        ((Node.root t).children.drop i) [])
      fun after => (∃ a, i ≤ a ∧ StandsAt (Tree.IsA "ADJP") t.children a) ∧
        ∃ j n, IsGreatest {j | StandsAt (Tree.IsA "ADJP") t.children j} j ∧
          (Node.root t).children[j]? = some n ∧ after = [("head", n)] := by
    intro i
    have hplaces : ∀ j, StandsAt (Tree.IsA "ADJP") t.children j → j < t.children.length :=
      fun _ hj => hj.lt
    refine (gap_takes_gives 0 (fun _ => takes_last_gives hadjective) hplaces).congr fun after => ?_
    simp only [isGreatest_beyond_iff, and_assoc, exists_and_left, Nat.add_zero]
  have hcopula := fun i => gap_says_gives (i := i) says_copula hlast
  have hquestion := gap_says_gives (i := 0) (says_tagged f.context "WHNP" (by decide)) hcopula
  refine headsLast_of_gives (by decide) hcategory hcompile (fun i hi => hi.2.lt) ?_
  refine hquestion.congr fun after => ?_
  simp only [IsLinkedAdjective, isGreatest_and_iff, and_assoc, exists_and_left, Nat.zero_le,
    true_and]
  rfl

-- A question with its question word as the head.
theorem nounQuestion_headsLast (hcategory : t.basicCategory = "SBARQ")
    (hcompile : compile pattern = .ok [.containing (.tagged "SBARQ") .children (.sequence true)
      [.gap, .capture (.tagged "WHNP") "head", .gap, .item (.named "copula"), .tagged "NP",
        .repeated (.negated (.tagged "ADJP")) .zeroOrMore]]) :
    HeadsLast f.context t (f.IsLinkedNoun t.children) pattern := by
  have htail : ∀ i captures, Gives
      (runSequence f.context true [.repeated (.negated (.tagged "ADJP")) .zeroOrMore]
        ((Node.root t).children.drop i) captures)
      fun after => (∀ a, i ≤ a → ¬StandsAt (Tree.IsA "ADJP") t.children a) ∧ after = captures :=
    fun i captures => none_gives (says_tagged f.context "ADJP" (by decide))
  have hcopula := fun i captures => gap_says_gives (i := i) says_copula fun c =>
    says_gives (says_tagged f.context "NP" (by decide)) (htail (c + 1) captures)
  have hword : ∀ w, Gives
      (runSequence f.context true [.capture (.tagged "WHNP") "head", .gap, .item (.named "copula"),
        .tagged "NP", .repeated (.negated (.tagged "ADJP")) .zeroOrMore]
        ((Node.root t).children.drop w) [])
      fun after => f.IsLinkedNoun t.children w ∧
        ∃ n, (Node.root t).children[w]? = some n ∧ after = [("head", n)] := fun w =>
    takes_gives ((says_tagged f.context "WHNP" (by decide)).capture "head") (hcopula (w + 1))
  refine headsLast_of_gives (by decide) hcategory hcompile (fun i hi => hi.1.lt) ?_
  refine (gap_takes_gives (i := 0) 0 hword fun w hw => hw.1.lt).congr fun after => ?_
  simp only [Nat.zero_le, true_and, Nat.add_zero]

theorem questionPatterns_headsLast (hcategory : t.basicCategory = "SBARQ") :
    List.Forall₂ (HeadsLast f.context t) [f.IsLinkedAdjective t.children, f.IsLinkedNoun t.children]
      questionPatterns := by
  have hcompile := compile_questionPatterns
  simp only [questionPatterns, questionTerms, List.map_cons, List.map_nil,
    List.cons.injEq] at hcompile
  obtain ⟨hadjective, hnoun, -⟩ := hcompile
  exact .cons (adjectiveQuestion_headsLast hcategory hadjective)
    (.cons (nounQuestion_headsLast hcategory hnoun) .nil)

-- The head of a conjunction phrase is the adverb of the first pair of words that occurs, where it
-- occurs last. The head of a question, unless copulas are heads, is the last adjective phrase if
-- there is one behind a question word and a copula, and the last question word that a copula links
-- to a noun phrase otherwise.
theorem special_lastOfFirst (f : SemanticFinder) (t : Tree) (parent : Option Parent) :
    (t.basicCategory = "CONJP" → ∃ place, f.special t parent = .ok (place.map ([·])) ∧
      LastOfFirst (wordPairs.map fun pair => pair.EndsAt t.children) place) ∧
    (t.basicCategory = "SBARQ" → f.copulaIsHead = false →
      ∃ place, f.special t parent = .ok (place.map ([·])) ∧
        LastOfFirst [f.IsLinkedAdjective t.children, f.IsLinkedNoun t.children] place) := by
  constructor
  · intro hcategory
    have hspecial : f.special t parent = patternHead f.context t conjunctionPatterns := by
      rw [special, hcategory]
      rfl
    rw [hspecial]
    exact patternHead_lastOfFirst (conjunctionPatterns_headsLast hcategory)
  · intro hcategory hcopula
    have hspecial : f.special t parent = patternHead f.context t questionPatterns := by
      simp only [special, hcategory, hcopula]
      rfl
    rw [hspecial]
    exact patternHead_lastOfFirst (questionPatterns_headsLast hcategory)

-- Two pairs in `and not but rather`, and two question words in `what is love what is wrong`.
theorem special_lastOfFirst_repeated :
    let word (tag text : String) : Tree := .node tag [.leaf text]
    let conjunction : Tree := .node "CONJP" [word "CC" "And", word "RB" "not", word "CC" "but",
      .node "ADVP" [word "RB" "rather"]]
    let what : Tree := .node "WHNP" [word "WP" "what"]
    let question : Tree := .node "SBARQ" [what, word "VBZ" "is", .node "NP" [word "NN" "love"],
      what, word "VBZ" "is", .node "ADJP-PRD" [word "JJ" "wrong"]]
    ∃ f, ofTables Config.Packaged.tables none = .ok f ∧ f.copulaIsHead = false ∧
      conjunction.basicCategory = "CONJP" ∧ question.basicCategory = "SBARQ" ∧
      (∃ place, f.special conjunction none = .ok (place.map ([·])) ∧
        LastOfFirst (wordPairs.map fun pair => pair.EndsAt conjunction.children) place) ∧
      ∃ place, f.special question none = .ok (place.map ([·])) ∧
        LastOfFirst [f.IsLinkedAdjective question.children, f.IsLinkedNoun question.children]
          place := by
  intro word conjunction what question
  have hrun : ((ofTables Config.Packaged.tables none).map (·.copulaIsHead)).toOption =
      some false := by
    decide +kernel
  obtain ⟨f, hf, hcopula⟩ := map_eq_ok.mp (toOption_eq_some.mp hrun)
  have hconjunction : conjunction.basicCategory = "CONJP" := by decide
  have hquestion : question.basicCategory = "SBARQ" := by decide
  exact ⟨f, hf, hcopula, hconjunction, hquestion,
    (special_lastOfFirst f conjunction none).1 hconjunction,
    (special_lastOfFirst f question none).2 hquestion hcopula⟩

end SemanticFinder

end HeadPercolation
