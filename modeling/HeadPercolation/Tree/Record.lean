import HeadPercolation.Tree.Basic

namespace HeadPercolation

-- A node of a tree as a record for exchange. A leaf has a word, any other node has a label and
-- its parts. Each field may be missing, and the parts may be there without being a list.
structure Record where
  word : Option String := none
  label : Option String := none
  parts : Option (Option (List Record)) := none

instance : Inhabited Record :=
  ⟨none, none, none⟩

inductive RecordError where
  | missingField
  | partsNotAList

def RecordError.message : RecordError → String
  | .missingField => "Tree node dictionary must have either 'w' or 'l' and 'p'"
  | .partsNotAList => "the parts are not a list"

mutual

-- A word wins over the other fields.
def Tree.ofRecord : Record → Except RecordError Tree
  | ⟨some word, _, _⟩ => .ok (.leaf word)
  | ⟨none, some label, some (some parts)⟩ => (treesOfRecords parts).map (.node label)
  | ⟨none, some _, some none⟩ => .error .partsNotAList
  | ⟨none, _, _⟩ => .error .missingField

def treesOfRecords : List Record → Except RecordError (List Tree)
  | [] => .ok []
  | r :: rs => do
    let t ← Tree.ofRecord r
    let ts ← treesOfRecords rs
    return t :: ts

end

mutual

def Tree.toRecord : Tree → Record
  | .leaf word => ⟨some word, none, none⟩
  | .node label ts => ⟨none, some label, some (some (recordsOfTrees ts))⟩

def recordsOfTrees : List Tree → List Record
  | [] => []
  | t :: ts => t.toRecord :: recordsOfTrees ts

end

mutual

theorem Tree.ofRecord_toRecord (t : Tree) : Tree.ofRecord t.toRecord = .ok t := by
  cases t with
  | leaf word => rfl
  | node label ts => simp [Tree.toRecord, Tree.ofRecord, treesOfRecords_recordsOfTrees ts, Except.map]

theorem treesOfRecords_recordsOfTrees (ts : List Tree) :
    treesOfRecords (recordsOfTrees ts) = .ok ts := by
  cases ts with
  | nil => rfl
  | cons t ts =>
      simp only [recordsOfTrees, treesOfRecords, Tree.ofRecord_toRecord t,
        treesOfRecords_recordsOfTrees ts]
      rfl

end

end HeadPercolation
