import HeadPercolation.Config.Fault
import HeadPercolation.HeadRule.Directive
import HeadPercolation.Table

namespace HeadPercolation.Config

-- A line of a table of head rules.
inductive RuleLine where
  -- The category has the directives of another one.
  | copy (category other : String)
  | rules (category : String) (directives : List Directive)

namespace RuleLine

-- A direction and the categories behind it.
def parseDirective (category : String) (part : List Char) : Except LineError Directive :=
  match (Text.words part).map String.ofList with
  | [] => .error (.fault (.emptyRule category))
  | name :: categories =>
    match Direction.ofName? name with
    | none => .error (.fault (.unknownDirection name))
    | some direction => .ok ⟨direction, categories⟩

-- A line `CAT = OTHER`, or a line `CAT direction cat ... | direction cat ...`.
def parse (line : String) : Except LineError RuleLine :=
  match Text.cutAt '=' line.toList with
  | some (before, after) =>
    let other := Text.trim after
    if (Text.words before).length = 1 && !other.isEmpty then
      .ok (.copy (String.ofList (Text.trim before)) (String.ofList other))
    else
      .error (.fault .malformedAlias)
  | none =>
    match Text.firstWord line.toList with
    | none => .error .blankRule
    | some (word, rest) => do
      let category := String.ofList word
      if rest.isEmpty then
        throw (.fault (.noDirection category))
      let directives ← (rest.splitOn '|').mapM (parseDirective category)
      return .rules category directives

-- The entry that a line makes. An alias takes its directives from `known`.
def entry (known : String → Option (List Directive)) :
    RuleLine → Except LineError (String × List Directive)
  | rules category directives => .ok (category, directives)
  | copy category other =>
    match known other with
    | none => .error (.fault (.unknownAlias other))
    | some directives => .ok (category, directives)

end RuleLine

-- Adds the entry of a line to a table.
def addRuleLine (table : Table (List Directive)) (known : String → Option (List Directive))
    (line : String) : Except LineError (Table (List Directive)) := do
  let parsed ← RuleLine.parse line
  let (category, directives) ← parsed.entry known
  return table.insert category directives

end HeadPercolation.Config
