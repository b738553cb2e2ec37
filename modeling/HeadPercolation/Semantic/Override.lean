import HeadPercolation.Pattern.Match
import HeadPercolation.Semantic.Clause
import HeadPercolation.Semantic.Coordination
import HeadPercolation.Semantic.Verbs

namespace HeadPercolation

-- The conjunction phrases of which the adverb is the head: `but not`, `and not`, `but also`,
-- `but rather`, `and yet`.
def conjunctionPatterns : List String := [
  "CONJP > [ .* CC > [ ( @\"but\" | @\"and\" ) $ ] RB=head > [ @\"not\" $ ] ]",
  "CONJP > [ .* CC > [ @\"but\" $ ] ( RB=head > [ ( @\"also\" | @\"rather\" ) $ ] " ++
    "| ADVP=head > [ RB > [ ( @\"also\" | @\"rather\" ) $ ] $ ] ) ]",
  "CONJP > [ .* CC > [ @\"and\" $ ] ( RB=head > [ @\"yet\" $ ] " ++
    "| ADVP=head > [ RB > [ @\"yet\" $ ] $ ] ) ]"]

-- Questions with a copula and a flat structure. In `what is wrong` the ADJP is the head. In
-- `who am I to judge` it is the WHNP, unless an ADJP follows as in `why is the dog pink`.
def questionPatterns : List String := [
  "SBARQ > [ .* WHNP .* %copula .* ADJP=head ]",
  "SBARQ > [ .* WHNP=head .* %copula NP !ADJP* $ ]"]

-- What stands beside an auxiliary as the main verb phrase.
def mainVerbDirective : Directive :=
  .left ["VP", "ADJP"]

-- What a copula links to its subject. An SQ turns their order around.
def complementDirective (t : Tree) : Directive :=
  ⟨⟨if t.basicCategory == "SQ" then .right else .left, .ranked⟩,
    ["VP", "ADJP", "NP", "WHADJP", "WHNP"]⟩

-- What is captured as `head` by the first pattern that matches.
def patternHead (context : Pattern.Context) (t : Tree) :
    List String → Except HeadError (Option Path)
  | [] => .ok none
  | pattern :: patterns => do
    match ← (Pattern.matchCaptures context pattern (.root t)).mapError .pattern with
    | none => patternHead context t patterns
    | some captures =>
      match captures.lookup "head" with
      | some n => return some n.path
      | none => throw (.uncaptured "head")

-- Temporal and adverbial phrases are not linked by a copula.
def isCircumstance (t : Tree) : Bool :=
  Text.contains "-TMP" t.label || Text.contains "-ADV" t.label

-- Does an NP stand before the index?
def hasNounPhraseBefore (children : List Tree) (index : Nat) : Bool :=
  (children.take index).any (Text.startsWith "NP" ·.label)

namespace SemanticFinder

def context (f : SemanticFinder) : Pattern.Context
  | "copula" => some (.test fun t => .truth (f.isCopula t))
  | _ => none

-- The finder of the head rules, with coordinations resolved.
def adjusted (f : SemanticFinder) : HeadFinder :=
  { f.base with adjust := f.adjust }

-- Do the children hold an auxiliary of whichever kind?
def hasAnyAuxiliary (f : SemanticFinder) (children : List Tree) : Bool :=
  f.hasAuxiliary children || f.hasPassive children

-- The main verb phrase beside an auxiliary.
def besideAuxiliary (f : SemanticFinder) (children : List Tree) : Except HeadError (Option Nat) :=
  f.adjusted.locate children mainVerbDirective

-- Does the copula of the node, if it has one, give way to its complement?
def linksComplement (f : SemanticFinder) (t : Tree) (parent : Option Parent) : Bool :=
  f.hasCopula t.children && !isExistential t parent && !isWhQuestion t parent

-- The complement of a copula. In an SQ an NP is the complement only if another one stands to its
-- left, since the first one is the subject.
def complement (f : SemanticFinder) (t : Tree) : Except HeadError (Option Nat) := do
  let candidates := t.children.zipIdx.filter (!isCircumstance ·.1)
  match ← f.adjusted.locate (candidates.map (·.1)) (complementDirective t) with
  | none => return none
  | some i =>
    match candidates[i]? with
    | none => throw .outOfRange
    | some (kid, place) =>
      let isSubject := t.basicCategory == "SQ" && Text.startsWith "NP" kid.label &&
        !hasNounPhraseBefore t.children place
      return if isSubject then none else some place

-- The head of a VP, SQ or SINV with an auxiliary or a copula.
def verbalHead (f : SemanticFinder) (t : Tree) (parent : Option Parent) :
    Except HeadError (Option Nat) := do
  let beside ← if f.hasAnyAuxiliary t.children then f.besideAuxiliary t.children else pure none
  match beside with
  | some i => return some i
  | none => if f.linksComplement t parent then f.complement t else return none

-- The head of a node of a category that is looked at before the head rules.
def special (f : SemanticFinder) (t : Tree) (parent : Option Parent) :
    Except HeadError (Option Path) :=
  match t.basicCategory with
  | "CONJP" => patternHead f.context t conjunctionPatterns
  | "SBARQ" => if f.copulaIsHead then .ok none else patternHead f.context t questionPatterns
  | "VP" | "SQ" | "SINV" => do return (← f.verbalHead t parent).map ([·])
  | _ => .ok none

def toHeadFinder (f : SemanticFinder) : HeadFinder :=
  { f.adjusted with special := f.special }

end SemanticFinder

end HeadPercolation
