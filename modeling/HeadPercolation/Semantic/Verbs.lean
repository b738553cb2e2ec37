import HeadPercolation.Semantic.Finder
import HeadPercolation.Text.Case

namespace HeadPercolation

-- Tags of participles. VBD is one of them since it is often given by mistake.
def participleTags : List String :=
  ["VBN", "VBG", "VBD"]

-- Does the node have a participle among its children?
def containsParticiple (t : Tree) : Bool :=
  t.children.any fun kid => kid.isPreterminal && participleTags.contains kid.label

-- Reads the children of a verb phrase from the left until one shows that the phrase is headed by
-- a participle: a participle, or a coordinator when the last phrase before it contains one. Such
-- phrases count only under a label that is exactly VP.
def showsParticiple (plain seen : Bool) : List Tree → Bool
  | [] => false
  | kid :: kids =>
    if kid.isPreterminal then
      if participleTags.contains kid.label || (kid.label == "CC" && seen) then true
      else showsParticiple plain seen kids
    else if kid.isPhrasal && plain then
      showsParticiple plain (containsParticiple kid) kids
    else
      showsParticiple plain seen kids

-- A verb phrase that is headed by a participle.
def isParticipleVP (t : Tree) : Bool :=
  t.isPhrasal && Text.startsWith "VP" t.label && showsParticiple (t.label == "VP") false t.children

namespace SemanticFinder

-- A preterminal with a copular word form.
def isCopula (f : SemanticFinder) (t : Tree) : Bool :=
  t.isPreterminal && Text.startsWith "VB" t.basicCategory &&
    f.copularVerbs.contains (Text.lowered (t.word?.getD ""))

-- A preterminal verb with a word of the vocabulary. If `byTag`, an unambiguous tag is enough.
def isVerbOf (f : SemanticFinder) (vocabulary : WordSet) (byTag : Bool) (t : Tree) : Bool :=
  t.isPreterminal &&
    ((byTag && f.unambiguousAuxiliaryTags.contains t.label) ||
      (f.verbalTags.contains t.label && vocabulary.contains (Text.lowered (t.word?.getD ""))))

-- A preterminal with an auxiliary verb.
def isAuxiliary (f : SemanticFinder) (t : Tree) : Bool :=
  f.isVerbOf f.auxiliaries true t

def isPassiveAuxiliary (f : SemanticFinder) (t : Tree) : Bool :=
  f.isVerbOf f.passiveAuxiliaries false t

def hasAuxiliary (f : SemanticFinder) (children : List Tree) : Bool :=
  children.any f.isAuxiliary

def hasCopula (f : SemanticFinder) (children : List Tree) : Bool :=
  children.any (f.isVerbOf f.copularVerbs false)

-- Reads the children from the left until both a passive auxiliary and a verb phrase headed by a
-- participle have been seen.
def showsPassive (f : SemanticFinder) (auxiliary participle : Bool) : List Tree → Bool
  | [] => auxiliary && participle
  | kid :: kids =>
    let auxiliary := auxiliary || f.isPassiveAuxiliary kid
    let participle := participle || isParticipleVP kid
    (auxiliary && participle) || f.showsPassive auxiliary participle kids

-- Do the children make a passive or a progressive, as in `was hit and killed`?
def hasPassive (f : SemanticFinder) (children : List Tree) : Bool :=
  f.showsPassive false false children

end SemanticFinder

end HeadPercolation
