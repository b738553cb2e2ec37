namespace HeadPercolation.Text

-- Every `step`-th code point from `first` to `last` is moved by `shift`.
structure Run where
  first : Nat
  last : Nat
  step : Nat
  shift : Int

-- The image of a code point that the run covers.
def Run.image? (run : Run) (code : Nat) : Option Nat :=
  if run.first ≤ code && code ≤ run.last && (code - run.first) % run.step == 0 then
    some (code + run.shift).toNat
  else
    none

-- A code point between two bounds of one of the ranges, both included.
def inRanges (ranges : List (Nat × Nat)) (code : Nat) : Bool :=
  ranges.any fun range => range.1 ≤ code && code ≤ range.2

end HeadPercolation.Text
