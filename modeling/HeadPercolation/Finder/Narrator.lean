import HeadPercolation.Finder.Percolation
import HeadPercolation.Finder.Remark

namespace HeadPercolation

-- A finder together with what it reports. The remarks follow the decisions and do not enter
-- into them.
structure Narrator where
  finder : HeadFinder
  onAdjust : Nat → List Tree → List Remark := fun _ _ => []
  onSpecial : Tree → Option Parent → List Remark := fun _ _ => []

namespace Narrator

def onLocate (n : Narrator) (children : List Tree) (d : Directive) : List Remark :=
  match d.choose? children with
  | none => []
  | some i => n.onAdjust i children

def onLocateLast (n : Narrator) (children : List Tree) (d : Directive) : List Remark :=
  if (d.choose? children).isSome then n.onLocate children d
  else n.onLocate children (n.finder.resort d.direction.edge)

def onLocateFirst (n : Narrator) (children : List Tree) : List Directive → List Remark
  | [] => []
  | [d] => n.onLocateLast children d
  | d :: ds =>
    if (d.choose? children).isSome then n.onLocate children d else n.onLocateFirst children ds

-- The choice by the table, and then the head.
def onTableHead (n : Narrator) (t : Tree) : List Remark :=
  let located := match n.finder.rules.get? (HeadFinder.ruleCategory t), n.finder.defaultRule with
    | some ds, _ => n.onLocateFirst t.children ds
    | none, some d => n.onLocateLast t.children d
    | none, none => []
  let head := match n.finder.tableHead t with
    | .ok i => t.children[i]?
    | .error _ => none
  located ++ (head.map fun s => .chosen t.label s.label).toList

def onChosenHead (n : Narrator) (t : Tree) (parent : Option Parent) : List Remark :=
  n.onSpecial t parent ++
    match n.finder.special t parent with
    | .ok none => n.onTableHead t
    | _ => []

-- Nothing is said about heads that need no choice.
def onHead (n : Narrator) (t : Tree) (parent : Option Parent) : List Remark :=
  if t.children.length < 2 || (n.finder.marked t).isSome then [] else n.onChosenHead t parent

-- All that is said on the way down to the head word.
def onHeadTerminal (n : Narrator) (t : Tree) (parent : Option Parent) : List Remark :=
  if t.isLeaf then
    []
  else
    n.onHead t parent ++
      match n.finder.head t parent with
      | .ok (i :: path) =>
        match h : t.get? (i :: path) with
        | none => []
        | some s =>
          have := Tree.sizeOf_lt_of_get? h
          n.onHeadTerminal s (some (t.above (i :: path)))
      | _ => []
termination_by sizeOf t

end Narrator

end HeadPercolation
