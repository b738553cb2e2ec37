import HeadPercolation.Pattern.Terms
import HeadPercolation.Text.Quoted

namespace HeadPercolation.Pattern

-- A list in square brackets.
def listed (parts : List String) : String :=
  "[" ++ ", ".intercalate parts ++ "]"

def nested (bracket : Bracket) (parts : List String) : String :=
  s!"<Nested('{bracket.opener}') {listed parts}>"

mutual

-- A group as it is shown: tokens in quotes, brackets as nested lists.
def Group.display : Group → String
  | .token t => Text.quoted t.text
  | .sequence content => nested .square (displaysOf content)
  | .set content => nested .curly (displaysOf content)
  | .choice alternatives =>
    nested .round ([Text.quoted Token.bar.text].intercalate (displaysOfEach alternatives))

def displaysOf : List Group → List String
  | [] => []
  | g :: gs => g.display :: displaysOf gs

def displaysOfEach : List (List Group) → List (List String)
  | [] => []
  | alternative :: rest => displaysOf alternative :: displaysOfEach rest

end

-- The parts of a term that are shown.
structure Shown where
  item : String
  name : String := ""
  sign : String := ""

def Shown.text (s : Shown) : String :=
  s!"<Term {s.item}{s.name}{s.sign}>"

mutual

-- Negation and contents are not shown.
def Term.shown : Term → Shown
  | .item i => ⟨Text.quoted i.text, "", ""⟩
  | .anyOf alternatives => ⟨listed (shownOf alternatives), "", ""⟩
  | .containing term _ _ _ => term.shown
  | .capture term name => { term.shown with name := "=" ++ name }
  | .negated term => term.shown
  | .repeated term times => { term.shown with sign := times.sign }

def shownOf : List Term → List String
  | [] => []
  | term :: terms => term.shown.text :: shownOf terms

end

def displayGroups (gs : List Group) : String :=
  listed (displaysOf gs)

def displayTerms (terms : List Term) : String :=
  listed (shownOf terms)

end HeadPercolation.Pattern
