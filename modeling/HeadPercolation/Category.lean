import HeadPercolation.Text.Split

namespace HeadPercolation

-- The characters that open a functional annotation on a label, as in `NP-SBJ`, `NP=2` or
-- `PP-LOC-CLR`.
def annotationMarks : List Char :=
  ['-', '=', '|', '#', '^', '~', '_']

def isAnnotationMark (c : Char) : Bool :=
  annotationMarks.contains c

-- The rest of a category behind its first character. A `pending` mark is closed by its next
-- occurrence, any other mark opens an annotation and ends the category.
def categoryTail (pending : Option Char) : List Char → List Char
  | [] => []
  | c :: cs =>
    if !isAnnotationMark c then c :: categoryTail pending cs
    else if pending = some c then c :: categoryTail none cs
    else []

-- The label without its functional annotations. A label that opens with a mark, such as
-- `-NONE-`, is kept up to the mark that closes it.
def categoryOf : List Char → List Char
  | [] => []
  | c :: cs => c :: categoryTail (if isAnnotationMark c then some c else none) cs

def basicCategory (label : String) : String :=
  String.ofList (categoryOf label.toList)

-- A label cut at its hyphens. An annotation of another kind on the first part is dropped.
def labelParts (label : String) : List String :=
  match Text.partsOf '-' label with
  | [] => []
  | "" :: parts => "" :: parts
  | _ :: parts => ((Text.partsOf '-' (basicCategory label)).headD "") :: parts

-- Does the label begin with the given parts? `NP` begins `NP-SBJ`, `NP-SBJ` does not begin `NP`.
def labelBeginsWith (parts : List String) (label : String) : Bool :=
  parts.isPrefixOf (labelParts label)

-- Does the label match a tag, either fully or in its leading parts?
def labelMatches (tag label : String) : Bool :=
  tag == label || labelBeginsWith (Text.partsOf '-' tag) label

theorem categoryTail_isPrefix (pending : Option Char) (cs : List Char) :
    categoryTail pending cs <+: cs := by
  induction cs generalizing pending with
  | nil => simp [categoryTail]
  | cons c cs ih =>
      unfold categoryTail
      split
      · simp [ih]
      · split
        · simp [ih]
        · simp

-- A category is the beginning of its label.
theorem categoryOf_isPrefix (label : List Char) : categoryOf label <+: label := by
  cases label with
  | nil => simp [categoryOf]
  | cons c cs => simp [categoryOf, categoryTail_isPrefix]

end HeadPercolation
