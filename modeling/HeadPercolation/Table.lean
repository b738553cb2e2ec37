namespace HeadPercolation

-- Gives a key its value. A key that was there keeps its place, a new one comes last.
def insertEntry {α : Type} (key : String) (value : α) : List (String × α) → List (String × α)
  | [] => [(key, value)]
  | (k, v) :: rest =>
    if k = key then (key, value) :: rest else (k, v) :: insertEntry key value rest

theorem mem_keys_insertEntry {α : Type} {key x : String} {value : α} {entries : List (String × α)} :
    x ∈ (insertEntry key value entries).map Prod.fst ↔ x = key ∨ x ∈ entries.map Prod.fst := by
  induction entries with
  | nil => simp [insertEntry]
  | cons entry rest ih =>
      unfold insertEntry
      split
      · simp_all
      · simp only [List.map_cons, List.mem_cons, ih]
        grind

theorem nodup_keys_insertEntry {α : Type} {key : String} {value : α} {entries : List (String × α)}
    (h : (entries.map Prod.fst).Nodup) : ((insertEntry key value entries).map Prod.fst).Nodup := by
  induction entries with
  | nil => simp [insertEntry]
  | cons entry rest ih =>
      obtain ⟨hmem, hrest⟩ := List.nodup_cons.mp h
      unfold insertEntry
      split
      · rename_i he
        exact List.nodup_cons.mpr ⟨he ▸ hmem, hrest⟩
      · rename_i hne
        refine List.nodup_cons.mpr ⟨fun hx => ?_, ih hrest⟩
        cases mem_keys_insertEntry.mp hx with
        | inl he => exact hne he
        | inr hm => exact hmem hm

-- Values under distinct keys, in the order in which the keys were first given.
structure Table (α : Type) where
  entries : List (String × α)
  nodup : (entries.map Prod.fst).Nodup
deriving DecidableEq

namespace Table

variable {α : Type}

def empty : Table α :=
  ⟨[], List.nodup_nil⟩

def size (t : Table α) : Nat :=
  t.entries.length

def get? (t : Table α) (key : String) : Option α :=
  t.entries.lookup key

def insert (t : Table α) (key : String) (value : α) : Table α :=
  ⟨insertEntry key value t.entries, nodup_keys_insertEntry t.nodup⟩

-- The entries of the other table win over those of this one.
def update (t other : Table α) : Table α :=
  other.entries.foldl (fun t entry => t.insert entry.1 entry.2) t

def ofList (entries : List (String × α)) : Table α :=
  entries.foldl (fun t entry => t.insert entry.1 entry.2) empty

def map {β : Type} (f : α → β) (t : Table α) : Table β where
  entries := t.entries.map fun entry => (entry.1, f entry.2)
  nodup := by simpa [Function.comp_def] using t.nodup

-- The value of each key in turn, up to the first that cannot be had.
def mapExcept {β ε : Type} (f : String → α → Except ε β) (t : Table α) : Except ε (Table β) := do
  let entries ← t.entries.mapM fun entry => do
    let value ← f entry.1 entry.2
    return (entry.1, value)
  return ofList entries

-- The entries by the code points of their keys.
def sorted (t : Table α) : List (String × α) :=
  t.entries.mergeSort fun a b => decide (a.1 ≤ b.1)

theorem get?_insert (t : Table α) (key x : String) (value : α) :
    (t.insert key value).get? x = if x = key then some value else t.get? x := by
  obtain ⟨entries, _⟩ := t
  simp only [get?, insert]
  induction entries with
  | nil =>
      simp only [insertEntry, List.lookup_cons]
      split <;> simp_all
  | cons entry rest ih =>
      unfold insertEntry
      split <;> simp only [List.lookup_cons] <;> grind

end Table

end HeadPercolation
