import HeadPercolation.Tree.Basic

namespace HeadPercolation.Bracketed

-- What is wrong with a text of bracketed trees.
inductive FormatError where
  | unbalanced (position : Nat)
  | emptyConstituent (label : String)
  | wordOutside (word : String)
  | unterminated
  | notOneTree (found : Nat)

def FormatError.message : FormatError → String
  | .unbalanced position => s!"Unbalanced right parenthesis at position {position}"
  | .emptyConstituent label => s!"Empty constituent '({label})' in tree"
  | .wordOutside word => s!"Word '{word}' found outside of a tree"
  | .unterminated => "String is unbalanced or not properly terminated"
  | .notOneTree found => s!"Expected exactly one tree in string, found {found}"

-- A parenthesis, or a maximal run of characters that are neither parentheses nor blank. A
-- closing parenthesis knows how many characters stand before it.
inductive Token where
  | opening
  | closing (position : Nat)
  | word (text : String)
deriving DecidableEq

def isDelimiter (c : Char) : Bool :=
  c == '(' || c == ')' || Text.isBlank c

-- The tokens from a position on. The characters of a word that was begun before it are given
-- nearest first.
def tokensFrom (position : Nat) (begun : List Char) : List Char → List Token
  | [] => close begun []
  | c :: cs =>
    if c == '(' then close begun (.opening :: tokensFrom (position + 1) [] cs)
    else if c == ')' then close begun (.closing position :: tokensFrom (position + 1) [] cs)
    else if Text.isBlank c then close begun (tokensFrom (position + 1) [] cs)
    else tokensFrom (position + 1) (c :: begun) cs
where
  close (begun : List Char) (tokens : List Token) : List Token :=
    if begun.isEmpty then tokens else .word (String.ofList begun.reverse) :: tokens

def tokens (text : String) : List Token :=
  tokensFrom 0 [] text.toList

-- A constituent whose closing parenthesis has not been met: its label and its children so far.
structure Constituent where
  label : String
  children : List Tree

-- A constituent without a label is a root.
def Constituent.close (c : Constituent) : Tree :=
  .node (if c.label.isEmpty then "ROOT" else c.label) c.children

-- The trees that were complete when reading ended, and why it ended if the text did not.
structure Reading where
  trees : List Tree
  error : Option FormatError

def Reading.cons (t : Tree) (reading : Reading) : Reading :=
  { reading with trees := t :: reading.trees }

-- Reads on within the open constituents, the innermost of which comes first.
def readFrom : List Constituent → List Token → Reading
  | [], [] => ⟨[], none⟩
  | _ :: _, [] => ⟨[], some .unterminated⟩
  | stack, .opening :: .word label :: rest => readFrom (⟨label, []⟩ :: stack) rest
  | stack, .opening :: rest => readFrom (⟨"", []⟩ :: stack) rest
  | [], .closing position :: _ => ⟨[], some (.unbalanced position)⟩
  | top :: stack, .closing _ :: rest =>
    if top.children.isEmpty then
      ⟨[], some (.emptyConstituent top.label)⟩
    else
      match stack with
      | [] => (readFrom [] rest).cons top.close
      | outer :: stack =>
        readFrom ({ outer with children := outer.children ++ [top.close] } :: stack) rest
  | [], .word word :: _ => ⟨[], some (.wordOutside word)⟩
  | top :: stack, .word word :: rest =>
    readFrom ({ top with children := top.children ++ [.leaf word] } :: stack) rest

-- The trees of a text such as `(NP (DT the) (NN dog))`, up to the first fault.
def readTrees (text : String) : Reading :=
  readFrom [] (tokens text)

-- The only tree of a text.
def readTree (text : String) : Except FormatError Tree :=
  match readTrees text with
  | ⟨_, some error⟩ => .error error
  | ⟨[tree], none⟩ => .ok tree
  | ⟨trees, none⟩ => .error (.notOneTree trees.length)

mutual

def write : Tree → List Char
  | .leaf word => word.toList
  | .node label ts => '(' :: label.toList ++ writeEach ts ++ [')']

def writeEach : List Tree → List Char
  | [] => []
  | t :: ts => ' ' :: write t ++ writeEach ts

end

end HeadPercolation.Bracketed

namespace HeadPercolation.Tree

-- The tree in one line, with a single space before each child.
def bracketed (t : Tree) : String :=
  String.ofList (Bracketed.write t)

end HeadPercolation.Tree
