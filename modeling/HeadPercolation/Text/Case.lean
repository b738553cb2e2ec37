import HeadPercolation.Text.Case.Fold
import HeadPercolation.Text.Case.Lower
import HeadPercolation.Text.Case.Property

namespace HeadPercolation.Text

-- The lower case of a character, whatever stands around it.
def lowerChar (c : Char) : List Char :=
  if c.toNat < 0x80 then
    [c.toLower]
  else if c.toNat == 0x130 then
    ['i', Char.ofNat 0x307]
  else
    [((lowerRuns.findSome? (·.image? c.toNat)).map Char.ofNat).getD c]

def isCased (c : Char) : Bool :=
  inRanges casedRanges c.toNat

def isCaseIgnorable (c : Char) : Bool :=
  inRanges caseIgnorableRanges c.toNat

-- Does a cased character come next, if the case-ignorable ones are passed over?
def meetsCased (cs : List Char) : Bool :=
  match cs.dropWhile isCaseIgnorable with
  | [] => false
  | c :: _ => isCased c

-- A capital sigma at the end of a word becomes U+03C2, any other becomes U+03C3. The
-- characters before it are given nearest first.
def lowerSigma (before after : List Char) : Char :=
  Char.ofNat (if meetsCased before && !meetsCased after then 0x3C2 else 0x3C3)

def lowerFrom (before : List Char) : List Char → List Char
  | [] => []
  | c :: cs =>
    (if c.toNat == 0x3A3 then [lowerSigma before cs] else lowerChar c) ++ lowerFrom (c :: before) cs

-- The full lower-case mapping of Unicode, with the rule for the final sigma.
def lower (cs : List Char) : List Char :=
  lowerFrom [] cs

-- The full case folding of a character.
def foldChar (c : Char) : List Char :=
  if c.toNat < 0x80 then
    [c.toLower]
  else
    match foldExpansions.lookup c.toNat with
    | some codes => codes.map Char.ofNat
    | none =>
      match foldRuns.findSome? (·.image? c.toNat) with
      | some code => [Char.ofNat code]
      | none => lowerChar c

-- The full case folding of Unicode: two texts are equal but for case if they fold alike.
def fold (cs : List Char) : List Char :=
  cs.flatMap foldChar

def lowered (s : String) : String :=
  String.ofList (lower s.toList)

def sameButForCase (s t : String) : Bool :=
  fold s.toList == fold t.toList

end HeadPercolation.Text
