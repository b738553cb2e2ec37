import HeadPercolation.Pattern.Error
import HeadPercolation.Text.Split

namespace HeadPercolation.Pattern

-- The characters that stand for themselves wherever they occur.
def signs : List Char :=
  ['.', '|', '(', ')', '\x7b', '\x7d', '[', ']', '*', '+', '?', '>', '$', '!']

-- Every sign by itself, and the runs of other characters between signs and white space.
def fragments : List Char → List (List Char)
  | [] => []
  | c :: cs =>
    if Text.isBlank c then fragments cs
    else if signs.contains c || cs.head?.all (fun d => Text.isBlank d || signs.contains d) then
      [c] :: fragments cs
    else
      match fragments cs with
      | [] => [[c]]
      | run :: rest => (c :: run) :: rest

-- A literal is a text between double quotes, with or without an at sign before it.
def beginsLiteral (cs : List Char) : Bool :=
  ['"'].isPrefixOf cs || ['@', '"'].isPrefixOf cs

def endsLiteral (cs : List Char) : Bool :=
  (if cs.head? = some '@' then 3 else 2) ≤ cs.length && cs.getLast? == some '"'

-- A literal that was cut into fragments is put together again, with single spaces.
def tokensFrom (begun : Option (List Char)) : List (List Char) → Except FormError (List Token)
  | [] => if begun.isSome then .error .unclosedLiteral else .ok []
  | fragment :: rest =>
    let text := match begun with
      | none => fragment
      | some start => start ++ ' ' :: fragment
    if beginsLiteral text && !endsLiteral text then
      tokensFrom (some text) rest
    else do
      let tokens ← tokensFrom none rest
      return Token.ofText (String.ofList text) :: tokens

-- The tokens of a pattern.
def tokens (pattern : String) : Except FormError (List Token) :=
  tokensFrom none (fragments pattern.toList)

end HeadPercolation.Pattern
