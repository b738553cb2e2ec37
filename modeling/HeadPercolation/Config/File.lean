namespace HeadPercolation.Config

-- A line as it is stored, with the newline at its end. Bytes that are no UTF-8 have no text.
inductive StoredLine where
  | text (text : String)
  | undecodable

abbrev File := List StoredLine

-- The parts of a sequence up to and including each end mark, and what is left after the last.
def splitAfter {α : Type} (isEnd : α → Bool) : List α → List (List α)
  | [] => []
  | x :: xs =>
    if isEnd x then
      [x] :: splitAfter isEnd xs
    else
      match splitAfter isEnd xs with
      | [] => [[x]]
      | part :: parts => (x :: part) :: parts

def File.ofText (text : String) : File :=
  (splitAfter (· == '\n') text.toList).map fun line => .text (String.ofList line)

-- A file of lines that are given without their newlines.
def File.ofLines (lines : List String) : File :=
  lines.map fun line => .text (line ++ "\n")

-- Each line is decoded on its own.
def File.ofBytes (bytes : List UInt8) : File :=
  (splitAfter (· == 10) bytes).map fun line =>
    match String.fromUTF8? ⟨line.toArray⟩ with
    | some text => .text text
    | none => .undecodable

-- Why no file is opened.
inductive OpenError where
  -- There is none of that name, or it cannot be read.
  | missing
  -- No file can have the name.
  | malformed
deriving DecidableEq

-- Files, and which of them a name leads to. Names are resolved outside, so that several of them, as
-- `a` and `./a`, can lead to one file. Links in two directories count as two files, since what they
-- include is named relative to their directories.
structure FileSet where
  count : Nat
  contents : Fin count → File
  locate : String → Except OpenError (Fin count)

-- What is opened by a name.
def FileSet.opened (files : FileSet) (name : String) : Except OpenError File :=
  (files.locate name).map files.contents

-- Files with one name each. A null character ends a name, and so none can contain it.
def FileSet.ofList (files : List (String × File)) : FileSet where
  count := files.length
  contents i := (files.get i).2
  locate name :=
    if '\x00' ∈ name.toList then
      .error .malformed
    else
      match files.findFinIdx? (·.1 == name) with
      | some i => .ok i
      | none => .error .missing

-- The directory of a file name, without the slashes at its end unless there is nothing else.
def directoryOf (name : List Char) : List Char :=
  let directory := (name.reverse.dropWhile (· != '/')).reverse
  if directory.all (· == '/') then directory
  else (directory.reverse.dropWhile (· == '/')).reverse

-- A name relative to a directory. A name that begins with a slash is not relative.
def joinName (directory name : List Char) : List Char :=
  if name.head? = some '/' || directory.isEmpty then name
  else if directory.getLast? = some '/' then directory ++ name
  else directory ++ '/' :: name

-- A name that is given in a file, relative to the directory of that file.
def nameBeside (file name : String) : String :=
  String.ofList (joinName (directoryOf file.toList) name.toList)

end HeadPercolation.Config
