import HeadPercolation.Pattern.Error
import HeadPercolation.Tree.Bracketed

namespace HeadPercolation

-- Why a node has no head, or why there is no finder.
inductive HeadError where
  -- A head finder must have a directive for each category that it knows.
  | emptyRules (category : String)
  | unknownDirection (name : String)
  | childless (label : String)
  | noRule (category : String) (t : Tree)
  | leaf
  -- The head is a node further down.
  | notAChild (label : String)
  -- No child stands at the place that was chosen.
  | outOfRange
  -- The marked head is not below the node.
  | notBelow (label : String)
  -- No directive was there to be tried.
  | undecided
  | pattern (error : Pattern.Error)
  -- A pattern matched and did not capture a head.
  | uncaptured (name : String)

def HeadError.message : HeadError → String
  | .emptyRules category => s!"Empty head rule list for category '{category}'"
  | .unknownDirection name => s!"Invalid head rule direction '{name}'"
  | .childless label => s!"Internal node '{label}' has no children"
  | .noRule category t => s!"No head rule defined for '{category}' in {t.bracketed}"
  | .leaf => "A leaf has no head child"
  | .notAChild label => s!"Head of '{label}' is not among its children"
  | .outOfRange => "list index out of range"
  | .notBelow label => s!"Head of '{label}' is not below it"
  | .undecided => "no head was chosen"
  | .pattern error => error.message
  | .uncaptured name => name

end HeadPercolation
