import HeadPercolation.Proofs.Pattern.Captured
import HeadPercolation.Semantic.Override

namespace HeadPercolation

open Pattern

namespace Pattern.Term

abbrev tagged (label : String) : Term :=
  .item (.atom (.tag label))

abbrev word (text : String) : Term :=
  .item (.atom (.leaf text))

-- Any number of nodes.
abbrev gap : Term :=
  .repeated (.item (.atom .any)) .zeroOrMore

-- A node with only one child.
abbrev holding (term child : Term) : Term :=
  .containing term .children (.sequence true) [child]

end Pattern.Term

-- A conjunction phrase with a coordinator and, right after it, an adverb.
def conjunctionTerm (coordinator adverb : Term) : Term :=
  .containing (.tagged "CONJP") .children (.sequence false)
    [.gap, .holding (.tagged "CC") coordinator, adverb]

-- An adverb that may make up a phrase.
def adverbTerm (word : Term) : Term :=
  .anyOf [.capture (.holding (.tagged "RB") word) "head",
    .capture (.holding (.tagged "ADVP") (.holding (.tagged "RB") word)) "head"]

def conjunctionTerms : List Term := [
  conjunctionTerm (.anyOf [.word "but", .word "and"])
    (.capture (.holding (.tagged "RB") (.word "not")) "head"),
  conjunctionTerm (.word "but") (adverbTerm (.anyOf [.word "also", .word "rather"])),
  conjunctionTerm (.word "and") (adverbTerm (.word "yet"))]

def questionTerms : List Term := [
  .containing (.tagged "SBARQ") .children (.sequence false)
    [.gap, .tagged "WHNP", .gap, .item (.named "copula"), .gap, .capture (.tagged "ADJP") "head"],
  .containing (.tagged "SBARQ") .children (.sequence true)
    [.gap, .capture (.tagged "WHNP") "head", .gap, .item (.named "copula"), .tagged "NP",
      .repeated (.negated (.tagged "ADJP")) .zeroOrMore]]

theorem compile_conjunctionPatterns :
    conjunctionPatterns.map compile = conjunctionTerms.map fun term => .ok [term] := by
  decide +kernel

theorem compile_questionPatterns :
    questionPatterns.map compile = questionTerms.map fun term => .ok [term] := by
  decide +kernel

-- Each of these terms captures a head for sure, and captures nothing but children as heads.
theorem patternTerms_capture {term : Term} (h : term ∈ conjunctionTerms ++ questionTerms) :
    term.binds "head" = true ∧
      ∀ n entry, term.MayCapture n entry ↔ ∃ c ∈ n.children, entry = ("head", c) := by
  rcases List.mem_append.mp h with hmem | hmem
  · simp only [conjunctionTerms, List.mem_cons, List.not_mem_nil, or_false] at hmem
    rcases hmem with rfl | rfl | rfl
    all_goals
      refine ⟨rfl, fun n entry => ?_⟩
      simp [conjunctionTerm, adverbTerm, Term.MayCapture, Reach.lists]
  · simp only [questionTerms, List.mem_cons, List.not_mem_nil, or_false] at hmem
    rcases hmem with rfl | rfl
    all_goals
      refine ⟨rfl, fun n entry => ?_⟩
      simp [Term.MayCapture, Reach.lists]

theorem exists_of_map_compile {patterns : List String} {terms : List Term}
    (h : patterns.map compile = terms.map fun term => .ok [term]) {pattern : String}
    (hp : pattern ∈ patterns) : ∃ term ∈ terms, compile pattern = .ok [term] := by
  have hmem := List.mem_map_of_mem (f := compile) hp
  rw [h] at hmem
  obtain ⟨term, hterm, heq⟩ := List.mem_map.mp hmem
  exact ⟨term, hterm, heq.symm⟩

theorem exists_compile_eq_ok {pattern : String}
    (h : pattern ∈ conjunctionPatterns ++ questionPatterns) :
    ∃ term ∈ conjunctionTerms ++ questionTerms, compile pattern = .ok [term] := by
  have hcompile : (conjunctionPatterns ++ questionPatterns).map compile =
      (conjunctionTerms ++ questionTerms).map fun term => .ok [term] := by
    rw [List.map_append, compile_conjunctionPatterns, compile_questionPatterns, List.map_append]
  exact exists_of_map_compile hcompile h

namespace SemanticFinder

-- The macro of the patterns answers with a truth value for each node.
theorem context_supports (f : SemanticFinder) {term : Term}
    (h : term ∈ conjunctionTerms ++ questionTerms) : f.context.Supports (macrosOf [term]) := by
  have hmacros : ∀ term ∈ conjunctionTerms ++ questionTerms, macrosOf [term] ⊆ ["copula"] := by
    decide
  intro name hname
  have hcopula : name = "copula" := by simpa using hmacros term h hname
  subst hcopula
  exact ⟨_, rfl, fun t => Or.inl ⟨f.isCopula t, rfl⟩⟩

-- Does matching a node succeed, and does a match capture one of its children as the head?
def CapturesChild (f : SemanticFinder) (pattern : String) (s : Tree) : Prop :=
  ∃ captured, matchCaptures f.context pattern (.root s) = .ok captured ∧
    ∀ captures, captured = some captures →
      ∃ (i : Nat) (c : Tree), captures.lookup "head" = some ⟨[i], c⟩ ∧ s.children[i]? = some c

theorem capturesChild_of_mem (f : SemanticFinder) {pattern : String}
    (h : pattern ∈ conjunctionPatterns ++ questionPatterns) (s : Tree) :
    f.CapturesChild pattern s := by
  obtain ⟨term, hterm, hcompile⟩ := exists_compile_eq_ok h
  obtain ⟨hbinds, hcapture⟩ := patternTerms_capture hterm
  have hbinds' : someBinds "head" [term] = true := by rw [someBinds, hbinds, Bool.true_or]
  obtain ⟨captured, hok, hlookup⟩ :=
    matchCaptures_lookup hcompile (f.context_supports hterm) hbinds' (.root s)
  refine ⟨captured, hok, fun captures hsome => ?_⟩
  obtain ⟨m, hm, term', hterm', hmay⟩ := hlookup captures hsome
  rw [List.mem_singleton.mp hterm', hcapture] at hmay
  obtain ⟨c, hc, heq⟩ := hmay
  obtain ⟨i, hi⟩ := List.mem_iff_getElem?.mp hc
  rw [Node.getElem?_children] at hi
  obtain ⟨t, ht, rfl⟩ := Option.map_eq_some_iff.mp hi
  obtain rfl : m = _ := congrArg Prod.snd heq
  exact ⟨i, t, hm, ht⟩

-- So a list of them names a child, if it names a head at all.
theorem patternHead_eq_ok (f : SemanticFinder) {patterns : List String}
    (h : patterns ⊆ conjunctionPatterns ++ questionPatterns) (s : Tree) :
    patternHead f.context s patterns = .ok none ∨
      ∃ i < s.children.length, patternHead f.context s patterns = .ok (some [i]) := by
  induction patterns with
  | nil => exact Or.inl rfl
  | cons pattern patterns ih =>
      obtain ⟨hpattern, hpatterns⟩ := List.cons_subset.mp h
      obtain ⟨captured, hok, hhead⟩ := f.capturesChild_of_mem hpattern s
      have hmatch : (matchCaptures f.context pattern (.root s)).mapError HeadError.pattern =
          .ok captured := by
        rw [hok]
        rfl
      rw [patternHead, bind_of_eq_ok hmatch]
      cases captured with
      | none => exact ih hpatterns
      | some captures =>
          obtain ⟨i, c, hlookup, hc⟩ := hhead captures rfl
          obtain ⟨hlt, -⟩ := List.getElem?_eq_some_iff.mp hc
          refine Or.inr ⟨i, hlt, ?_⟩
          simp only [hlookup]
          rfl

end SemanticFinder

end HeadPercolation
