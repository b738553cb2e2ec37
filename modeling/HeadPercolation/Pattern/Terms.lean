import HeadPercolation.Pattern.Group
import HeadPercolation.Pattern.Term
import HeadPercolation.Pattern.Tokens

namespace HeadPercolation.Pattern

-- Where a list of terms stands. It decides on the end mark and on repetitions.
inductive Place where
  | sequence
  | set
  | alternative
deriving DecidableEq

-- The terms of a list, and whether an end mark follows them.
structure Terms where
  terms : List Term
  anchored : Bool

-- A group whose content has been read.
inductive Element where
  | token (token : Token)
  | sequence (content : Except FormError Terms)
  | set (content : Except FormError Terms)
  | choice (alternatives : Except FormError (List Term))

-- A term that is still being read.
structure Draft where
  negated : Bool
  core : Term
  name : Option String

def Draft.term (draft : Draft) : Term :=
  let named := match draft.name with
    | none => draft.core
    | some name => .capture draft.core name
  if draft.negated then .negated named else named

-- What was read last.
inductive Stage where
  | between
  | afterNegation
  -- An item. Contents, a repetition or the next term may follow.
  | afterItem (draft : Draft)
  -- An item and a sign that announces its contents.
  | afterReach (draft : Draft) (reach : Reach)
  -- An item and its contents. A repetition or the next term may follow.
  | afterContents (draft : Draft)
  | finished

structure State where
  done : List Term
  stage : Stage

-- An item, and the name that follows its equals sign. A literal holds no name.
def readItem (text : String) : Except FormError (Term × Option String) :=
  if beginsLiteral text.toList then
    .ok (.item (.ofText text), none)
  else
    match Text.cutAt '=' text.toList with
    | none => .ok (.item (.ofText text), none)
    | some (item, name) =>
      if item.isEmpty || name.isEmpty then
        .error (.malformedCapture text)
      else
        .ok (.item (.ofText (String.ofList item)), some (String.ofList name))

-- The first element of a term, but for a negation.
def readCore : Element → Except FormError (Term × Option String)
  | .token (.item text) => readItem text
  | .token token => .error (.spurious token)
  | .sequence _ => .error (.spurious (.opening .square))
  | .set _ => .error (.spurious (.opening .curly))
  | .choice alternatives => alternatives.map fun terms => (.anyOf terms, none)

-- Begins a term, or ends the list.
def start (place : Place) (done : List Term) (negated : Bool) (e : Element) :
    Except FormError State :=
  match e with
  | .token .finish =>
    if place = .sequence && !negated then .ok ⟨done, .finished⟩ else .error (.spurious .finish)
  | e => do
    let (core, name) ← readCore e
    return ⟨done, .afterItem ⟨negated, core, name⟩⟩

-- The contents that a term must have. A single item is a set of one.
def readContents : Element → Except FormError (Shape × List Term)
  | .sequence content => content.map fun terms => (.sequence terms.anchored, terms.terms)
  | .set content => content.map fun terms => (.set, terms.terms)
  | .token .negation => .error .missingItem
  | e => do
    let (core, name) ← readCore e
    return (.set, [Draft.term ⟨false, core, name⟩])

-- A term is complete and something else than contents follows.
def continueAfter (place : Place) (done : List Term) (draft : Draft) (e : Element) :
    Except FormError State :=
  match e with
  | .token (.repetition times) =>
    if place = .set then
      .error (.repetitionInSet times)
    else
      .ok ⟨done ++ [.repeated draft.term times], .between⟩
  | .token .negation => .ok ⟨done ++ [draft.term], .afterNegation⟩
  | e => start place (done ++ [draft.term]) false e

def step (place : Place) (s : State) (e : Element) : Except FormError State :=
  match s.stage, e with
  | .between, .token .negation => .ok { s with stage := .afterNegation }
  | .between, e => start place s.done false e
  | .afterNegation, e => start place s.done true e
  | .afterItem draft, .token .arrow => .ok { s with stage := .afterReach draft .children }
  | .afterItem draft, e => continueAfter place s.done draft e
  | .afterReach draft .children, .token .arrow =>
    .ok { s with stage := .afterReach draft .anywhere }
  | .afterReach draft reach, e => do
    let (shape, contents) ← readContents e
    return { s with
      stage := .afterContents { draft with core := .containing draft.core reach shape contents } }
  | .afterContents draft, e => continueAfter place s.done draft e
  | .finished, _ => .error .finishNotLast

def State.finish (s : State) : Except FormError Terms :=
  match s.stage with
  | .between => .ok ⟨s.done, false⟩
  | .afterNegation => .error .missingItem
  | .afterItem draft => .ok ⟨s.done ++ [draft.term], false⟩
  | .afterReach _ reach => .error (.missingArgument reach)
  | .afterContents draft => .ok ⟨s.done ++ [draft.term], false⟩
  | .finished => .ok ⟨s.done, true⟩

-- Attaches the modifiers of a list to the items that they apply to.
def readTerms (place : Place) (elements : List Element) : Except FormError Terms := do
  let s ← elements.foldlM (step place) ⟨[], .between⟩
  s.finish

-- An alternative is exactly one term.
def readAlternative (elements : List Element) : Except FormError Term := do
  match ← readTerms .alternative elements with
  | ⟨[term], _⟩ => return term
  | _ => .error .alternativeNotSingle

mutual

def Group.element : Group → Element
  | .token t => .token t
  | .sequence content => .sequence (readTerms .sequence (elementsOf content))
  | .set content => .set (readTerms .set (elementsOf content))
  | .choice alternatives => .choice (readAlternatives alternatives)

def elementsOf : List Group → List Element
  | [] => []
  | g :: gs => g.element :: elementsOf gs

def readAlternatives : List (List Group) → Except FormError (List Term)
  | [] => .ok []
  | alternative :: rest => do
    let term ← readAlternative (elementsOf alternative)
    let terms ← readAlternatives rest
    return term :: terms

end

-- The terms of a pattern. A pattern is a set of terms about one node.
def termsOf (gs : List Group) : Except FormError (List Term) :=
  (readTerms .set (elementsOf gs)).map (·.terms)

-- The groups of the text of a pattern.
def parse (pattern : String) : Except FormError (List Group) := do
  groups (← tokens pattern)

def compile (pattern : String) : Except FormError (List Term) := do
  termsOf (← parse pattern)

end HeadPercolation.Pattern
