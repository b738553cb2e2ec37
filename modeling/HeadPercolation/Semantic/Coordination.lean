import HeadPercolation.Semantic.Finder

namespace HeadPercolation.SemanticFinder

-- May a node be passed over on the way to a conjunct? Punctuation may be, and so may
-- interjections, unless it is interjections that are conjoined. Its category is given apart, as
-- its label or its basic category.
def passesOver (f : SemanticFinder) (interjections : Bool) (category : String) (t : Tree) : Bool :=
  (t.isPreterminal &&
    (f.punctuationTags.contains category || (!interjections && category == "UH"))) ||
  (category == "INTJ" && !interjections)

def isSeparator (t : Tree) : Bool :=
  t.basicCategory == "," || t.basicCategory == ":"

def isCoordinator (t : Tree) : Bool :=
  t.basicCategory == "CC" || t.basicCategory == "CONJP"

-- The place of the conjunct before the first `count` children, if it is separated from what
-- stands behind it. Has a separator been `seen` there?
def conjunctBefore (f : SemanticFinder) (interjections : Bool) (children : List Tree)
    (seen : Bool) : Nat → Option Nat
  | 0 => none
  | count + 1 =>
    match children[count]? with
    | none => none
    | some kid =>
      if isSeparator kid then
        f.conjunctBefore interjections children true count
      else if f.passesOver interjections kid.basicCategory kid then
        f.conjunctBefore interjections children seen count
      else if seen then
        some count
      else
        none

-- The place of the conjunct before the one at the index.
def previousConjunct (f : SemanticFinder) (interjections : Bool) (children : List Tree)
    (index : Nat) : Option Nat :=
  f.conjunctBefore interjections children false index

theorem lt_of_conjunctBefore {f : SemanticFinder} {interjections seen : Bool}
    {children : List Tree} {count place : Nat}
    (h : f.conjunctBefore interjections children seen count = some place) : place < count := by
  induction count generalizing seen with
  | zero => simp [conjunctBefore] at h
  | succ count ih =>
      unfold conjunctBefore at h
      split at h
      · simp at h
      · split at h
        · exact Nat.lt_succ_of_lt (ih h)
        · split at h
          · exact Nat.lt_succ_of_lt (ih h)
          · split at h
            · simp_all
            · simp at h

-- The place of the first of the conjuncts that end with the one at the index.
def firstConjunct (f : SemanticFinder) (interjections : Bool) (children : List Tree)
    (index : Nat) : Nat :=
  match h : f.previousConjunct interjections children index with
  | none => index
  | some place =>
    have := lt_of_conjunctBefore h
    f.firstConjunct interjections children place
termination_by index

-- The place of the first conjunct, if a coordinator stands before the child at the index.
def coordinated? (f : SemanticFinder) (index : Nat) (children : List Tree) : Option Nat :=
  if index < 2 || !(children[index - 1]?.any isCoordinator) then
    none
  else
    let interjections := children[index]?.any (·.basicCategory == "UH")
    let before := children.take (index - 1)
    (Edge.right.search (fun kid => !f.passesOver interjections kid.label kid) before).map
      (f.firstConjunct interjections children)

-- The head of a coordination is its first conjunct.
def adjust (f : SemanticFinder) (index : Nat) (children : List Tree) : Nat :=
  (f.coordinated? index children).getD index

end HeadPercolation.SemanticFinder
