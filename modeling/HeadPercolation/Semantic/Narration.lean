import HeadPercolation.Finder.Narrator
import HeadPercolation.Semantic.Override

namespace HeadPercolation

-- The elements up to the first that satisfies `p`, which is included.
def takeThrough {α : Type} (p : α → Bool) : List α → List α
  | [] => []
  | x :: xs => if p x then [x] else x :: takeThrough p xs

namespace SemanticFinder

-- Only preterminals are looked at.
def onCheck (t : Tree) : Option Remark :=
  if t.isPreterminal then some (.checked t.label (Text.lowered (t.word?.getD ""))) else none

-- The children that are looked at before both parts of a passive have been seen.
def examined (f : SemanticFinder) (auxiliary participle : Bool) : List Tree → List Tree
  | [] => []
  | kid :: kids =>
    let auxiliary := auxiliary || f.isPassiveAuxiliary kid
    let participle := participle || isParticipleVP kid
    if auxiliary && participle then [kid] else kid :: f.examined auxiliary participle kids

def onAdjust (f : SemanticFinder) (index : Nat) (children : List Tree) : List Remark :=
  ((f.coordinated? index children).map (.moved index)).toList

def narrator (f : SemanticFinder) : Narrator :=
  { finder := f.toHeadFinder, onAdjust := f.onAdjust }

-- The head of an attempt, if there is one.
def attempted (t : Tree) : Except HeadError (Option Nat) → Option (Option Tree)
  | .ok place => some (place.bind (t.children[·]?))
  | .error _ => none

def onAuxiliaries (f : SemanticFinder) (t : Tree) : List Remark :=
  (takeThrough f.isAuxiliary t.children).filterMap onCheck ++
    if f.hasAuxiliary t.children then []
    else (f.examined false false t.children).filterMap onCheck ++ [.passive (f.hasPassive t.children)]

def onBesideAuxiliary (f : SemanticFinder) (t : Tree) : List Remark :=
  f.narrator.onLocate t.children mainVerbDirective ++
    ((attempted t (f.besideAuxiliary t.children)).map (.besideAuxiliary t.label)).toList

def onComplement (f : SemanticFinder) (t : Tree) : List Remark :=
  f.narrator.onLocate (t.children.filter (!isCircumstance ·)) (complementDirective t) ++
    ((attempted t (f.complement t)).map (.besideCopula t.label)).toList

def onVerbalHead (f : SemanticFinder) (t : Tree) (parent : Option Parent) : List Remark :=
  let auxiliary := f.hasAnyAuxiliary t.children
  let beside := if auxiliary then f.besideAuxiliary t.children else .ok none
  f.onAuxiliaries t ++ (if auxiliary then f.onBesideAuxiliary t else []) ++
    match beside with
    | .ok none =>
      (takeThrough (f.isVerbOf f.copularVerbs false) t.children).filterMap onCheck ++
        if f.linksComplement t parent then f.onComplement t else []
    | _ => []

def onSpecial (f : SemanticFinder) (t : Tree) (parent : Option Parent) : List Remark :=
  .arrived t.label (parent.map (·.tree.label)) ::
    match t.basicCategory with
    | "VP" | "SQ" | "SINV" => f.onVerbalHead t parent
    | _ => []

-- The finder with all that it reports.
def toNarrator (f : SemanticFinder) : Narrator :=
  { f.narrator with onSpecial := f.onSpecial }

end SemanticFinder

end HeadPercolation
