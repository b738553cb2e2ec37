import HeadPercolation.Config.Fault
import HeadPercolation.Config.File
import HeadPercolation.Text.Case
import HeadPercolation.Text.Split

namespace HeadPercolation.Config

structure Position where
  file : String
  line : Nat
deriving DecidableEq

-- A reader of a file, at the line that it read last. As long as it reads a file that is included
-- there, it stands around the reader of that file.
inductive Reader where
  | alone (position : Position)
  | around (position : Position) (inner : Reader)

-- The place that a reader gives is that of the innermost one.
def Reader.position : Reader → Position
  | alone position => position
  | around _ inner => inner.position

-- A line after continuations and includes are resolved, and the reader as it yields the line.
structure Line where
  reader : Reader
  text : String

def Line.position (line : Line) : Position :=
  line.reader.position

-- Why reading ended before the end of the files.
inductive Failure where
  | missing (fault : Located Fault)
  | undecodable
  | includeWithoutName
  -- A name is that of no file, whatever files there are.
  | malformedName
  -- Files include each other in a circle.
  | includesTooDeep

-- The lines that were read, and the reader when reading ended.
structure Reading where
  lines : List Line
  reader : Reader
  failure : Option Failure

namespace Reading

-- The place where reading ended.
def stop (r : Reading) : Position :=
  r.reader.position

def failed (position : Position) (failure : Failure) : Reading :=
  ⟨[], .alone position, some failure⟩

def ofLine (position : Position) (text : List Char) : Reading :=
  ⟨[⟨.alone position, String.ofList text⟩], .alone position, none⟩

-- The same reading inside a reader that is at the position.
def within (position : Position) (r : Reading) : Reading :=
  { r with
    lines := r.lines.map fun line => { line with reader := .around position line.reader }
    reader := .around position r.reader }

end Reading

-- What a file consists of after continuations are resolved. A line has the number of the last of
-- the stored lines that make it up.
inductive Entry where
  | line (number : Nat) (text : List Char)
  -- A line that is continued at the end of the file.
  | unfinished (number : Nat) (text : List Char)
  -- What follows so many lines is no UTF-8.
  | undecodable (number : Nat)

-- A backslash at the end of a line, but for white space, continues it in the next one.
def isContinued (text : List Char) : Bool :=
  (Text.trimRight text).getLast? == some '\\'

-- What a continued line adds to the lines after it.
def continuedText (text : List Char) : List Char :=
  (Text.trim text).dropLast ++ [' ']

-- Does the line include a file?
def isInclude (text : List Char) : Bool :=
  ['$'].isPrefixOf text && "$include ".toList.isPrefixOf (Text.lower text)

-- The name behind the first word of a line.
def includedName? (text : List Char) : Option String :=
  match Text.firstWord text with
  | none => none
  | some (_, rest) => if rest.isEmpty then none else some (String.ofList (Text.trimRight rest))

-- A file that is included must be there, as must the first one. The fault is placed at the line
-- that includes the file, unless that is in a file without a name.
def missingFile (includer : Option Position) (name : String) : Located Fault :=
  match includer with
  | none => .nowhere (.missingFile name)
  | some position =>
    if position.file.isEmpty then .nowhere (.missingFile name)
    else (Located.nowhere (.missingInclude name)).locate position.file position.line

-- What it means for a reader that no file is opened. Only a missing file is a fault.
def OpenError.failure (includer : Option Position) (name : String) : OpenError → Failure
  | missing => .missing (missingFile includer name)
  | malformed => .malformedName

-- The entries of a file after the first `number` of its lines. The text of continued lines before
-- them is `held`.
def entriesFrom (number : Nat) (held : List Char) : File → List Entry
  | [] => if held.isEmpty then [] else [.unfinished number held]
  | .undecodable :: _ => [.undecodable number]
  | .text stored :: rest =>
    let text := stored.toList
    if isContinued text then
      entriesFrom (number + 1) (held ++ continuedText text) rest
    else
      let text := if held.isEmpty then text else held ++ Text.trimLeft text
      .line (number + 1) text :: entriesFrom (number + 1) [] rest

-- Reads an entry of the file `name`. Included files are read by `splice`. A line that is not
-- finished includes nothing.
def Entry.read (splice : Position → String → Reading) (name : String) : Entry → Reading
  | line number text =>
    let position := ⟨name, number⟩
    if isInclude text then
      match includedName? text with
      | some target => (splice position (nameBeside name target)).within position
      | none => .failed position .includeWithoutName
    else
      .ofLine position text
  | unfinished number text => .ofLine ⟨name, number⟩ text
  | undecodable number => .failed ⟨name, number⟩ .undecodable

-- Reads the entries of the file `name`, which ends after the line `last`.
def readEntries (splice : Position → String → Reading) (name : String) (last : Nat) :
    List Entry → Reading
  | [] => ⟨[], .alone ⟨name, last⟩, none⟩
  | entry :: entries =>
    let first := entry.read splice name
    match first.failure with
    | some _ => first
    | none =>
      let following := readEntries splice name last entries
      { following with lines := first.lines ++ following.lines }

-- Reads a file with all that it includes, down to a depth.
def readDown (files : FileSet) : Nat → Option Position → String → Reading
  | 0, _, name => .failed ⟨name, 0⟩ .includesTooDeep
  | depth + 1, includer, name =>
    match files.opened name with
    | .error error => .failed ⟨name, 0⟩ (error.failure includer name)
    | .ok file =>
      readEntries (fun position target => readDown files depth (some position) target) name
        file.length (entriesFrom 0 [] file)

-- Reads a file with all that it includes. Files that do not include each other in a circle
-- cannot include each other more deeply than there are files. A circle is gone through twice, at
-- least: where all names of a file lead to the same files from there, a line of the circle that is
-- not refused the second time never is.
def read (files : FileSet) (name : String) : Reading :=
  readDown files (3 * files.count + 1) none name

end HeadPercolation.Config
