import HeadPercolation.Pattern.Error

namespace HeadPercolation.Pattern

-- A token, or what stands between a bracket and its partner. The content of round brackets is
-- cut into alternatives.
inductive Group where
  | token (token : Token)
  | sequence (content : List Group)
  | set (content : List Group)
  | choice (alternatives : List (List Group))

-- What stands before the closer of an open bracket, and what stands after it. Inner brackets of
-- the same kind are counted in `depth`, those of other kinds are passed over.
def splitAtCloser (bracket : Bracket) (depth : Nat) :
    List Token → Option (List Token × List Token)
  | [] => none
  | t :: ts =>
    if t = .closing bracket then
      match depth with
      | 0 => some ([], ts)
      | depth + 1 => (splitAtCloser bracket depth ts).map fun (inner, rest) => (t :: inner, rest)
    else
      let depth := if t = .opening bracket then depth + 1 else depth
      (splitAtCloser bracket depth ts).map fun (inner, rest) => (t :: inner, rest)

-- The two parts are the list without the closer.
theorem splitAtCloser_eq_some {bracket : Bracket} {depth : Nat} {ts inner rest : List Token}
    (h : splitAtCloser bracket depth ts = some (inner, rest)) :
    ts = inner ++ .closing bracket :: rest := by
  induction ts generalizing depth inner with
  | nil => simp [splitAtCloser] at h
  | cons t ts ih =>
      unfold splitAtCloser at h
      split at h
      · cases depth with
        | zero => simp_all
        | succ depth =>
            obtain ⟨⟨front, back⟩, hsplit, heq⟩ := Option.map_eq_some_iff.mp h
            simp only [Prod.mk.injEq] at heq
            obtain ⟨rfl, rfl⟩ := heq
            simp [ih hsplit]
      · obtain ⟨⟨front, back⟩, hsplit, heq⟩ := Option.map_eq_some_iff.mp h
        simp only [Prod.mk.injEq] at heq
        obtain ⟨rfl, rfl⟩ := heq
        simp [ih hsplit]

theorem length_lt_of_splitAtCloser {bracket : Bracket} {depth : Nat} {ts inner rest : List Token}
    (h : splitAtCloser bracket depth ts = some (inner, rest)) :
    inner.length < ts.length ∧ rest.length < ts.length := by
  rw [splitAtCloser_eq_some h]
  simp only [List.length_append, List.length_cons]
  omega

-- The parts of a list between its bars, empty ones included.
def splitAtBars : List Group → List (List Group)
  | [] => [[]]
  | .token .bar :: gs => [] :: splitAtBars gs
  | g :: gs =>
    match splitAtBars gs with
    | [] => [[g]]
    | part :: parts => (g :: part) :: parts

-- What stands between two brackets. No alternative may be empty.
def Group.enclose (bracket : Bracket) (content : List Group) : Except FormError Group :=
  match bracket with
  | .square => .ok (.sequence content)
  | .curly => .ok (.set content)
  | .round =>
    let alternatives := splitAtBars content
    if alternatives.any (·.isEmpty) then .error .emptyAlternative else .ok (.choice alternatives)

-- Brackets are resolved from left to right, each with all that it encloses before what follows.
def groups : List Token → Except FormError (List Group)
  | [] => .ok []
  | .opening bracket :: ts =>
    match h : splitAtCloser bracket 0 ts with
    | none => .error (.mismatched (.opening bracket))
    | some (inner, rest) => do
      have := length_lt_of_splitAtCloser h
      let content ← groups inner
      let g ← Group.enclose bracket content
      let gs ← groups rest
      return g :: gs
  | .closing bracket :: _ => .error (.mismatched (.closing bracket))
  | t :: ts => do
    let gs ← groups ts
    return .token t :: gs
termination_by ts => ts.length
decreasing_by all_goals simp only [List.length_cons]; omega

mutual

-- The tokens of a group, its brackets and bars included.
def Group.tokens : Group → List Token
  | .token t => [t]
  | .sequence content => .opening .square :: tokensOfEach content ++ [.closing .square]
  | .set content => .opening .curly :: tokensOfEach content ++ [.closing .curly]
  | .choice alternatives => .opening .round :: tokensOfAlternatives alternatives

def tokensOfEach : List Group → List Token
  | [] => []
  | g :: gs => g.tokens ++ tokensOfEach gs

-- The alternatives up to the closing bracket, with a bar before each but the first.
def tokensOfAlternatives : List (List Group) → List Token
  | [] => [.closing .round]
  | alternative :: rest => tokensOfEach alternative ++ tokensOfRest rest

def tokensOfRest : List (List Group) → List Token
  | [] => [.closing .round]
  | alternative :: rest => .bar :: tokensOfEach alternative ++ tokensOfRest rest

end

end HeadPercolation.Pattern
