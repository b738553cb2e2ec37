import HeadPercolation.Pattern.Terms

namespace HeadPercolation.Pattern

-- What a macro says about a node.
inductive Answer where
  | truth (value : Bool)
  | text (value : String)
  | nothing
  | other

-- A macro is an answer that is the same for all nodes, or a test of a node. Only a test can
-- answer with a truth value.
inductive Macro where
  | constant (answer : Answer)
  | test (answer : Tree → Answer)

-- The macros by their names.
abbrev Context := String → Option Macro

-- The nodes that were captured, the newest first.
abbrev Captures := List (String × Node)

-- The captures of a match, or `none` if there is no match.
abbrev Outcome := Except MacroError (Option Captures)

-- The atom that the text of a macro stands for.
def Answer.atom (name : String) : Answer → Except MacroError Atom
  | truth _ => .error (.notText name)
  | other => .error (.notText name)
  | nothing => .error (.unknown name)
  | text value =>
    match Token.ofText value with
    | .item _ => .ok (.ofText value)
    | sign => .error (.reserved sign)

def Answer.holds (name : String) (t : Tree) (answer : Answer) : Except MacroError Bool :=
  (answer.atom name).map (·.holds t)

def Macro.holds (name : String) (t : Tree) : Macro → Except MacroError Bool
  | constant answer => answer.holds name t
  | test answer =>
    match answer t with
    | .truth value => .ok value
    | answer => answer.holds name t

def Item.holds (context : Context) (t : Tree) : Item → Except MacroError Bool
  | atom a => .ok (a.holds t)
  | named name =>
    match context name with
    | none => .error (.unknown name)
    | some m => m.holds name t

-- The lists of nodes among which the contents of a node are looked for, in the order in which
-- they are tried.
def Reach.lists (n : Node) : Reach → List (List Node)
  | children => [n.children]
  | anywhere => n.below.map Node.children

-- The nodes that remain and the captures after a term of a sequence has taken its share.
structure Remainder where
  nodes : List Node
  captures : Captures

-- All shares of any number of nodes, the largest first.
def shares (test : Node → Captures → Outcome) :
    List Node → Captures → Except MacroError (List Remainder)
  | [], captures => .ok [⟨[], captures⟩]
  | n :: ns, captures => do
    match ← test n captures with
    | none => return [⟨n :: ns, captures⟩]
    | some taken => return (← shares test ns taken) ++ [⟨n :: ns, captures⟩]

-- The share of one node, if there is one.
def oneShare (test : Node → Captures → Outcome) :
    List Node → Captures → Except MacroError (List Remainder)
  | [], _ => .ok []
  | n :: ns, captures => do
    match ← test n captures with
    | none => return []
    | some taken => return [⟨ns, taken⟩]

-- The shares that a term may take, in the order in which they are tried.
def sharesOf (times : Option Repetition) (test : Node → Captures → Outcome) (nodes : List Node)
    (captures : Captures) : Except MacroError (List Remainder) :=
  match times with
  | none => oneShare test nodes captures
  | some .optional => (oneShare test nodes captures).map (· ++ [⟨nodes, captures⟩])
  | some .zeroOrMore => shares test nodes captures
  | some .oneOrMore => (shares test nodes captures).map (·.dropLast)

mutual

-- Tests a node. A negated term captures nothing.
def Term.run (context : Context) : Term → Node → Captures → Outcome
  | .item i => fun n captures => do
    return if ← i.holds context n.tree then some captures else none
  | .anyOf alternatives => runAnyOf context alternatives
  | .containing term reach shape contents => fun n captures => do
    match ← term.run context n captures with
    | none => return none
    | some captures =>
      match shape with
      | .set =>
        (reach.lists n).findSomeM? fun nodes => runSet context contents nodes captures
      | .sequence anchored =>
        (reach.lists n).findSomeM? fun nodes =>
          runSequence context anchored contents nodes captures
  | .capture term name => fun n captures => do
    return (← term.run context n captures).map ((name, n) :: ·)
  | .negated term => fun n captures => do
    return if (← term.run context n captures).isSome then none else some captures
  | .repeated term _ => term.run context

-- The first alternative that holds counts.
def runAnyOf (context : Context) : List Term → Node → Captures → Outcome
  | [] => fun _ _ => return none
  | term :: terms => fun n captures => do
    match ← term.run context n captures with
    | some captures => return some captures
    | none => runAnyOf context terms n captures

-- Each term holds of the first node that it can hold of.
def runSet (context : Context) : List Term → List Node → Captures → Outcome
  | [] => fun _ captures => return some captures
  | term :: terms => fun nodes captures => do
    match ← nodes.findSomeM? fun n => term.run context n captures with
    | none => return none
    | some captures => runSet context terms nodes captures

-- Each term takes its share of the nodes, and gives some back if those after it cannot hold.
def runSequence (context : Context) (anchored : Bool) :
    List Term → List Node → Captures → Outcome
  | [] => fun nodes captures => return if anchored && !nodes.isEmpty then none else some captures
  | term :: terms => fun nodes captures => do
    let remainders ← sharesOf term.repetition? (term.run context) nodes captures
    remainders.findSomeM? fun r => runSequence context anchored terms r.nodes r.captures

end

-- The captures of a match of a node, by the newest of each name.
def captures (context : Context) (terms : List Term) (n : Node) : Outcome :=
  runSet context terms [n] []

-- Compiles a pattern and matches a node against it.
def matchCaptures (context : Context) (pattern : String) (n : Node) :
    Except Error (Option Captures) := do
  let terms ← (compile pattern).mapError .form
  (captures context terms n).mapError .lookup

end HeadPercolation.Pattern
