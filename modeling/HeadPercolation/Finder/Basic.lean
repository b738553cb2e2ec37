import HeadPercolation.Finder.Error
import HeadPercolation.HeadRule.Directive
import HeadPercolation.Table

namespace HeadPercolation

-- The node above a node, and the index of the node among its children if it is one of them.
structure Parent where
  tree : Tree
  place : Option Nat

-- Chooses the heads of nodes by a table of directives for each category. A head is named by the
-- way down from its node.
structure HeadFinder where
  rules : Table (List Directive)
  -- The categories that the last resort passes over.
  avoid : List String := []
  -- The directive for categories that are not in the table.
  defaultRule : Option Directive := none
  -- Moves a child that was chosen by a directive.
  adjust : Nat → List Tree → Nat := fun i _ => i
  -- A head that is marked in the tree.
  marked : Tree → Option Path := fun _ => none
  -- A head that is chosen before the table is looked at.
  special : Tree → Option Parent → Except HeadError (Option Path) := fun _ _ => .ok none

def Directive.ofWritten (d : Directive.Written) : Except HeadError Directive :=
  match Direction.ofName? d.direction with
  | some direction => .ok ⟨direction, d.categories⟩
  | none => .error (.unknownDirection d.direction)

-- The directives of a category, of which there must be one at least.
def checkDirectives (category : String) (ds : List Directive.Written) :
    Except HeadError (List Directive) :=
  if ds.isEmpty then .error (.emptyRules category) else ds.mapM Directive.ofWritten

namespace HeadFinder

-- A finder with the given directives, checked in order, the default last.
def ofRules (rules : Table (List Directive.Written)) (avoid : List String)
    (defaultRule : Option Directive.Written) : Except HeadError HeadFinder := do
  let rules ← rules.mapExcept checkDirectives
  let defaultRule ← defaultRule.mapM Directive.ofWritten
  return { rules, avoid, defaultRule }

-- What the last resort tries before it takes the child at the edge.
def resort (hf : HeadFinder) (edge : Edge) : Directive :=
  if hf.avoid.isEmpty then ⟨⟨edge, .ranked⟩, []⟩ else ⟨⟨edge, .unlisted⟩, hf.avoid⟩

-- The child that a directive chooses, adjusted; `none` if it chooses none.
def locate (hf : HeadFinder) (children : List Tree) (d : Directive) :
    Except HeadError (Option Nat) :=
  match d.choose? children with
  | none => .ok none
  | some i =>
    let j := hf.adjust i children
    if j < children.length then .ok (some j) else .error .outOfRange

-- As `locate`, but if the directive chooses no child then one is chosen from its edge.
def locateLast (hf : HeadFinder) (children : List Tree) (d : Directive) :
    Except HeadError Nat := do
  let edge := d.direction.edge
  match ← hf.locate children d with
  | some i => return i
  | none =>
    match ← hf.locate children (hf.resort edge) with
    | some i => return i
    | none =>
      match edge.outermost? children with
      | some i => return i
      | none => throw .outOfRange

-- The choice of the first directive that makes one. The last is a last resort.
def locateFirst (hf : HeadFinder) (children : List Tree) : List Directive → Except HeadError Nat
  | [] => .error .undecided
  | [d] => hf.locateLast children d
  | d :: ds => do
    match ← hf.locate children d with
    | some i => return i
    | none => hf.locateFirst children ds

-- The category that a node has in the table. An at sign is put before the labels of the nodes
-- that making a tree binary brings in.
def ruleCategory (t : Tree) : String :=
  match t.basicCategory.toList with
  | '@' :: cs => String.ofList cs
  | cs => String.ofList cs

-- The head of a node by the table.
def tableHead (hf : HeadFinder) (t : Tree) : Except HeadError Nat :=
  match hf.rules.get? (ruleCategory t) with
  | some ds => hf.locateFirst t.children ds
  | none =>
    match hf.defaultRule with
    | some d => hf.locateLast t.children d
    | none => .error (.noRule (ruleCategory t) t)

-- The head of a node with two or more children and no mark.
def chosenHead (hf : HeadFinder) (t : Tree) (parent : Option Parent) : Except HeadError Path := do
  match ← hf.special t parent with
  | some path => return path
  | none => return [← hf.tableHead t]

-- The head of a node. A leaf is its own head, an only child is the head of its parent.
def head (hf : HeadFinder) (t : Tree) (parent : Option Parent) : Except HeadError Path :=
  match t with
  | .leaf _ => .ok []
  | .node label [] => .error (.childless label)
  | .node _ children =>
    match hf.marked t with
    | some path => .ok path
    | none => if children.length = 1 then .ok [0] else hf.chosenHead t parent

-- The index of the head among the children.
def headIndex (hf : HeadFinder) (t : Tree) (parent : Option Parent) : Except HeadError Nat :=
  if t.isLeaf then
    .error .leaf
  else do
    match ← hf.head t parent with
    | [i] => return i
    | _ => throw (.notAChild t.label)

end HeadFinder

end HeadPercolation
