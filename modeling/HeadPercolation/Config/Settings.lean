import HeadPercolation.Config.RuleLine
import HeadPercolation.Config.Source
import HeadPercolation.Config.Tables

namespace HeadPercolation.Config

-- The sections of a configuration.
inductive Section where
  | settings
  | words (list : WordList)
  | headRules
  | semanticHeadRules
deriving DecidableEq

def Section.ofName? : String → Option Section
  | "settings" => some .settings
  | "punctuation_tags" => some (.words .punctuationTags)
  | "verbal_tags" => some (.words .verbalTags)
  | "unambiguous_auxiliary_tags" => some (.words .unambiguousAuxiliaryTags)
  | "auxiliaries" => some (.words .auxiliaries)
  | "passive_auxiliaries" => some (.words .passiveAuxiliaries)
  | "copular_verbs" => some (.words .copularVerbs)
  | "head_rules" => some .headRules
  | "semantic_head_rules" => some .semanticHeadRules
  | _ => none

-- What is configured, whether a configuration has been read to its end, and whether decisions
-- are to be reported.
structure Settings where
  tables : Tables
  loaded : Bool
  debug : Bool
deriving DecidableEq

-- Why a configuration could not be read.
inductive ReadError where
  | fault (fault : Located Fault)
  | blankRule
  | undecodable
  | includeWithoutName
  | malformedName
  | includesTooDeep
deriving DecidableEq

namespace Settings

def initial : Settings :=
  ⟨.empty, false, false⟩

-- A line `parameter = value`. Reports can be switched on and not off.
def assign (s : Settings) (line : String) : Except LineError Settings :=
  match Text.cutAt '=' (Text.lower line.toList) with
  | none => .error (.fault .notAnAssignment)
  | some (before, after) => do
    let parameter := String.ofList (Text.trim before)
    let value ← match String.ofList (Text.trim after) with
      | "true" => pure true
      | "false" => pure false
      | text => throw (.fault (.notABoolean parameter text))
    match parameter with
    | "debug" => return { s with debug := s.debug || value }
    | "treat_copula_as_head" => return { s with tables.copulaIsHead := value }
    | _ => throw (.fault (.unknownParameter parameter))

-- Adds the words of a text to a list, verb forms in lower case.
def addWords (s : Settings) (list : WordList) (text : String) : Settings :=
  let words := Text.wordsOf text
  let words := if list.isVocabulary then words.map Text.lowered else words
  { s with tables := s.tables.addWords list words }

-- The rules that an alias in the semantic table can refer to.
def semanticRules? (s : Settings) (category : String) : Option (List Directive) :=
  (s.tables.semanticHeadRules.get? category).or (s.tables.headRules.get? category)

-- Takes up a line of a section.
def handle (s : Settings) (line : String) : Section → Except LineError Settings
  | .settings => s.assign line
  | .words list => .ok (s.addWords list line)
  | .headRules => do
    let table ← addRuleLine s.tables.headRules s.tables.headRules.get? line
    return { s with tables.headRules := table }
  | .semanticHeadRules => do
    let table ← addRuleLine s.tables.semanticHeadRules s.semanticRules? line
    return { s with tables.semanticHeadRules := table }

-- What is left of a line without its comment and the white space around it.
def contentOf (text : String) : List Char :=
  Text.trim (text.toList.takeWhile (· != '#'))

-- The name between square brackets, if the line is nothing else.
def sectionName? (content : List Char) : Option String :=
  if content.head? = some '[' && content.getLast? = some ']' then
    some (String.ofList (Text.lower (Text.trim content.tail.dropLast)))
  else
    none

-- Takes up a line within the current section, which it may change.
def takeLine (s : Settings) (current : Option Section) (text : String) :
    Except LineError (Settings × Option Section) :=
  match contentOf text with
  | [] => .ok (s, current)
  | content =>
    match sectionName? content with
    | some name =>
      match Section.ofName? name with
      | some opened => .ok (s, some opened)
      | none => .error (.fault (.unknownSection name))
    | none =>
      let line := String.ofList content
      match current with
      | none => .error (.fault (.noSection line))
      | some current => (s.handle line current).map fun s => (s, some current)

def placed (position : Position) : LineError → ReadError
  | .fault fault => .fault ((Located.nowhere fault).locate position.file position.line)
  | .blankRule => .blankRule

def failed (stop : Position) : Failure → ReadError
  | .missing fault => .fault (fault.locate stop.file stop.line)
  | .undecodable => .undecodable
  | .includeWithoutName => .includeWithoutName
  | .malformedName => .malformedName
  | .includesTooDeep => .includesTooDeep

-- Takes up lines until one is refused.
def takeLines (s : Settings) (current : Option Section) : List Line → Settings × Option ReadError
  | [] => (s, none)
  | line :: lines =>
    match s.takeLine current line.text with
    | .error error => (s, some (placed line.position error))
    | .ok (s, current) => s.takeLines current lines

-- Reads a configuration in place of what was read before. If an error ends the reading, what was
-- read up to it stays.
def reread (s : Settings) (files : FileSet) (name : String) : Settings × Option ReadError :=
  let reading := Config.read files name
  match { s with tables := .empty }.takeLines none reading.lines with
  | (s, some error) => (s, some error)
  | (s, none) =>
    match reading.failure with
    | some failure => (s, some (failed reading.stop failure))
    | none => ({ s with loaded := true }, none)

-- Reads a configuration, unless one has been read and reading is not forced.
def read (s : Settings) (files : FileSet) (name : String) (force : Bool) :
    Settings × Option ReadError :=
  if s.loaded && !force then (s, none) else s.reread files name

end Settings

end HeadPercolation.Config
