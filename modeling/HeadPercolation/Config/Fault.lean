namespace HeadPercolation.Config

-- What is wrong with a line of a configuration, or with a file that it names.
inductive Fault where
  | unknownSection (name : String)
  | noSection (line : String)
  | notAnAssignment
  | notABoolean (parameter value : String)
  | unknownParameter (parameter : String)
  | malformedAlias
  | unknownAlias (category : String)
  | noDirection (category : String)
  | emptyRule (category : String)
  | unknownDirection (name : String)
  | missingInclude (file : String)
  | missingFile (file : String)
deriving DecidableEq

def Fault.message : Fault → String
  | .unknownSection name => s!"Unknown section name '{name}'"
  | .noSection line => s!"No handler for config line '{line}'"
  | .notAnAssignment => "Expected a 'parameter = value' line"
  | .notABoolean parameter value => s!"Invalid parameter value: {parameter} = {value}"
  | .unknownParameter parameter => s!"Unknown configuration parameter '{parameter}'"
  | .malformedAlias => "Head rule alias should have the form CAT = OTHER"
  | .unknownAlias category => s!"Head rule alias refers to unknown category '{category}'"
  | .noDirection category => s!"Head rule for '{category}' must specify at least one direction"
  | .emptyRule category => s!"Empty head rule for '{category}'"
  | .unknownDirection name => s!"Unknown head rule direction '{name}'"
  | .missingInclude file => s!"Error while opening or reading include file '{file}'"
  | .missingFile file => s!"Error while opening or reading config file '{file}'"

-- A fault and the place where it was found, if that is known. An empty name is no name.
structure Located (α : Type) where
  fault : α
  file : Option String
  line : Int
deriving DecidableEq

namespace Located

variable {α : Type}

def nowhere (fault : α) : Located α :=
  ⟨fault, none, 0⟩

def isPlaced (e : Located α) : Bool :=
  match e.file with
  | none => false
  | some file => !file.isEmpty

-- Gives a fault its place, unless it has one.
def locate (file : Option String) (line : Int) (e : Located α) : Located α :=
  if e.isPlaced then e else { e with file, line }

-- The text of a fault with its place, if it has one.
def describe (text : α → String) (e : Located α) : String :=
  match e.file with
  | none => text e.fault
  | some file =>
    if file.isEmpty then text e.fault
    else s!"File {file}, line {e.line}: {text e.fault}"

-- The first place stays.
theorem locate_of_isPlaced {e : Located α} (h : e.isPlaced = true) (file : Option String)
    (line : Int) : e.locate file line = e := by
  simp [locate, h]

end Located

-- Why a line was refused.
inductive LineError where
  | fault (fault : Fault)
  -- A head rule was expected.
  | blankRule

end HeadPercolation.Config
