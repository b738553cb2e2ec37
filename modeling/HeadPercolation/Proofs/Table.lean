import HeadPercolation.Proofs.Results
import HeadPercolation.Table
import Mathlib.Data.List.Nodup

namespace HeadPercolation.Table

variable {α β ε : Type}

-- Entries that are put into a table one after the other win over what was there.
theorem get?_foldl_insert (t : Table α) {entries : List (String × α)}
    (h : (entries.map Prod.fst).Nodup) (key : String) :
    (entries.foldl (fun t entry => t.insert entry.1 entry.2) t).get? key =
      (entries.lookup key).or (t.get? key) := by
  induction entries generalizing t with
  | nil => simp
  | cons entry entries ih =>
      obtain ⟨k, a⟩ := entry
      obtain ⟨hk, hentries⟩ := List.nodup_cons.mp h
      rw [List.foldl_cons, ih _ hentries, get?_insert, List.lookup_cons]
      by_cases hkey : key = k
      · subst hkey
        have hnone : entries.lookup key = none := by
          rw [List.lookup_eq_none_iff]
          rintro ⟨k, b⟩ hmem
          have hne : key ≠ k := fun he => hk (List.mem_map.mpr ⟨(k, b), hmem, he.symm⟩)
          simpa using hne
        simp [hnone]
      · have hbeq : (key == k) = false := by simpa using hkey
        simp [hkey, hbeq]

theorem get?_ofList {entries : List (String × α)} (h : (entries.map Prod.fst).Nodup)
    (key : String) : (ofList entries).get? key = entries.lookup key := by
  rw [ofList, get?_foldl_insert _ h]
  exact Option.or_none

theorem get?_update (t other : Table α) (key : String) :
    (t.update other).get? key = (other.get? key).or (t.get? key) :=
  get?_foldl_insert t other.nodup key

theorem get?_map (f : α → β) (t : Table α) (key : String) :
    (t.map f).get? key = (t.get? key).map f := by
  obtain ⟨entries, hnodup⟩ := t
  simp only [get?, map]
  clear hnodup
  induction entries with
  | nil => rfl
  | cons entry entries ih =>
      obtain ⟨k, a⟩ := entry
      simp only [List.map_cons, List.lookup_cons, ih]
      cases key == k <;> rfl

-- Keys are distinct, so an entry is what its key leads to.
theorem get?_eq_some_iff {t : Table α} {key : String} {a : α} :
    t.get? key = some a ↔ (key, a) ∈ t.entries := by
  obtain ⟨entries, hnodup⟩ := t
  simp only [get?]
  rw [List.lookup_eq_some_iff]
  constructor
  · rintro ⟨before, after, rfl, -⟩
    simp
  · intro hmem
    obtain ⟨before, after, rfl⟩ := List.append_of_mem hmem
    rw [List.map_append, List.map_cons, List.nodup_middle, List.nodup_cons,
      ← List.map_append] at hnodup
    refine ⟨before, after, rfl, fun entry hentry => ?_⟩
    have hne : key ≠ entry.1 := fun he =>
      hnodup.1 (List.mem_map.mpr ⟨entry, List.mem_append_left after hentry, he.symm⟩)
    simpa using hne

-- The keys stay, and each value is the result of its own step.
theorem mapExcept_eq_ok {f : String → α → Except ε β} {t : Table α} {u : Table β}
    (h : t.mapExcept f = .ok u) (key : String) :
    (t.get? key = none ∧ u.get? key = none) ∨
      ∃ a b, t.get? key = some a ∧ u.get? key = some b ∧ f key a = .ok b := by
  obtain ⟨entries, hentries, hu⟩ := bind_eq_ok.mp h
  cases hu
  have hsteps : List.Forall₂ (fun (e : String × α) (e' : String × β) =>
      e.1 = e'.1 ∧ f e.1 e.2 = .ok e'.2) t.entries entries := by
    refine (mapM_eq_ok.mp hentries).imp fun e e' he => ?_
    obtain ⟨b, hb, he'⟩ := bind_eq_ok.mp he
    cases he'
    exact ⟨rfl, hb⟩
  have hkeys : t.entries.map Prod.fst = entries.map Prod.fst := by
    rw [← List.forall₂_eq_eq_eq, List.forall₂_map_left_iff, List.forall₂_map_right_iff]
    exact hsteps.imp fun _ _ he => he.1
  rw [get?_ofList (hkeys ▸ t.nodup), get?]
  generalize t.entries = old at hsteps
  clear hentries hkeys h
  induction hsteps with
  | nil => exact Or.inl ⟨rfl, rfl⟩
  | @cons e e' old entries he _ ih =>
      obtain ⟨k, a⟩ := e
      obtain ⟨k', b⟩ := e'
      obtain ⟨rfl, hb⟩ := he
      simp only [List.lookup_cons]
      cases hkey : key == k with
      | true =>
          obtain rfl := eq_of_beq hkey
          exact Or.inr ⟨a, b, rfl, rfl, hb⟩
      | false => exact ih

theorem exists_mapExcept_eq_ok {f : String → α → Except ε β} {t : Table α}
    (h : ∀ entry ∈ t.entries, ∃ b, f entry.1 entry.2 = .ok b) : ∃ u, t.mapExcept f = .ok u := by
  have hsteps : ∃ entries, t.entries.mapM (fun entry => do
      let value ← f entry.1 entry.2
      return (entry.1, value)) = .ok entries := by
    apply exists_mapM_eq_ok
    intro entry hentry
    obtain ⟨b, hb⟩ := h entry hentry
    exact ⟨(entry.1, b), bind_eq_ok.mpr ⟨b, hb, rfl⟩⟩
  obtain ⟨entries, hentries⟩ := hsteps
  exact ⟨ofList entries, bind_eq_ok.mpr ⟨entries, hentries, rfl⟩⟩

theorem map_insertEntry (f : α → β) (key : String) (value : α) (entries : List (String × α)) :
    (insertEntry key value entries).map (fun entry => (entry.1, f entry.2)) =
      insertEntry key (f value) (entries.map fun entry => (entry.1, f entry.2)) := by
  induction entries with
  | nil => rfl
  | cons entry rest ih =>
      obtain ⟨k, v⟩ := entry
      rw [insertEntry, List.map_cons, insertEntry, apply_ite (List.map _), List.map_cons,
        List.map_cons, ih]

theorem map_insert (f : α → β) (t : Table α) (key : String) (value : α) :
    (t.insert key value).map f = (t.map f).insert key (f value) := by
  simp only [map, insert, map_insertEntry]

theorem map_ofList (f : α → β) (entries : List (String × α)) :
    (ofList entries).map f = ofList (entries.map fun entry => (entry.1, f entry.2)) := by
  rw [ofList, ofList, List.foldl_map]
  exact (List.foldl_hom (map f) fun t entry => (map_insert f t entry.1 entry.2).symm).symm

-- Steps that keep up with those of another table.
theorem mapExcept_map {γ δ : Type} {f : String → α → Except ε β} {g : String → γ → Except ε δ}
    {a : α → γ} {b : β → δ} (hstep : ∀ key x y, f key x = .ok y → g key (a x) = .ok (b y))
    {t : Table α} {u : Table β} (h : t.mapExcept f = .ok u) :
    (t.map a).mapExcept g = .ok (u.map b) := by
  obtain ⟨entries, hentries, hu⟩ := bind_eq_ok.mp h
  cases hu
  refine bind_eq_ok.mpr ⟨entries.map fun entry => (entry.1, b entry.2), ?_, ?_⟩
  · rw [mapM_eq_ok, map, List.forall₂_map_left_iff, List.forall₂_map_right_iff]
    refine (mapM_eq_ok.mp hentries).imp fun e e' he => ?_
    obtain ⟨y, hy, he'⟩ := bind_eq_ok.mp he
    cases he'
    exact bind_of_eq_ok (hstep e.1 e.2 y hy)
  · rw [map_ofList]
    rfl

end HeadPercolation.Table
