namespace HeadPercolation.Pattern

inductive Bracket where
  | round
  | square
  | curly
deriving DecidableEq

def Bracket.opener : Bracket → String
  | round => "("
  | square => "["
  | curly => "\x7b"

def Bracket.closer : Bracket → String
  | round => ")"
  | square => "]"
  | curly => "\x7d"

-- How many nodes of a sequence an item stands for, where it is not one.
inductive Repetition where
  | zeroOrMore
  | oneOrMore
  | optional
deriving DecidableEq

def Repetition.sign : Repetition → String
  | zeroOrMore => "*"
  | oneOrMore => "+"
  | optional => "?"

-- A lexical unit of a pattern. An item is a wildcard, a label, a literal or the name of a macro,
-- with or without a capture name.
inductive Token where
  | opening (bracket : Bracket)
  | closing (bracket : Bracket)
  | bar
  | arrow
  | negation
  | repetition (times : Repetition)
  | finish
  | item (text : String)
deriving DecidableEq

def Token.text : Token → String
  | opening bracket => bracket.opener
  | closing bracket => bracket.closer
  | bar => "|"
  | arrow => ">"
  | negation => "!"
  | repetition times => times.sign
  | finish => "$"
  | item text => text

-- A text that is no reserved sign is an item.
def Token.ofText : String → Token
  | "(" => opening .round
  | "[" => opening .square
  | "\x7b" => opening .curly
  | ")" => closing .round
  | "]" => closing .square
  | "\x7d" => closing .curly
  | "|" => bar
  | ">" => arrow
  | "!" => negation
  | "*" => repetition .zeroOrMore
  | "+" => repetition .oneOrMore
  | "?" => repetition .optional
  | "$" => finish
  | text => item text

theorem Token.text_ofText (text : String) : (Token.ofText text).text = text := by
  unfold Token.ofText
  split <;> rfl

end HeadPercolation.Pattern
