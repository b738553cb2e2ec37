import HeadPercolation.Pattern.Token

namespace HeadPercolation.Pattern

-- How far below a node its contents are looked for.
inductive Reach where
  | children
  | anywhere
deriving DecidableEq

def Reach.sign : Reach → String
  | children => ">"
  | anywhere => ">>"

-- What is wrong with the text of a pattern.
inductive FormError where
  | unclosedLiteral
  | mismatched (bracket : Token)
  | emptyAlternative
  | missingItem
  | spurious (token : Token)
  | finishNotLast
  | alternativeNotSingle
  | malformedCapture (item : String)
  | missingArgument (reach : Reach)
  | repetitionInSet (times : Repetition)

def FormError.message : FormError → String
  | .unclosedLiteral => "Malformed literal in pattern"
  | .mismatched bracket => s!"Mismatched '{bracket.text}' in pattern"
  | .emptyAlternative => "Empty alternative in pattern"
  | .missingItem => "Missing item after '!' in pattern"
  | .spurious token => s!"Spurious '{token.text}' in pattern"
  | .finishNotLast => "'$' must be at the end of a sequence"
  | .alternativeNotSingle => "Each alternative must be a single item"
  | .malformedCapture item => s!"Malformed capture '{item}' in pattern"
  | .missingArgument reach => s!"Missing argument to '{reach.sign}' operator"
  | .repetitionInSet times => s!"Repeat operator '{times.sign}' is not allowed within a set"

-- What is wrong with a macro of a pattern, found when a node is tested against it.
inductive MacroError where
  | unknown (name : String)
  | notText (name : String)
  | reserved (sign : Token)

def MacroError.message : MacroError → String
  | .unknown name => s!"Macro '{name}' not found in context"
  | .notText name => s!"Macro '{name}' must yield a callable or string"
  | .reserved sign => s!"Spurious '{sign.text}' in pattern"

inductive Error where
  | form (error : FormError)
  | lookup (error : MacroError)

def Error.message : Error → String
  | .form error => error.message
  | .lookup error => error.message

end HeadPercolation.Pattern
