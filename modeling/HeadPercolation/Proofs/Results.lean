import Mathlib.Data.List.Forall2

namespace HeadPercolation

variable {α β ε : Type}

-- A step that succeeds came after one that did.
theorem bind_eq_ok {x : Except ε α} {f : α → Except ε β} {b : β} :
    (x >>= f) = .ok b ↔ ∃ a, x = .ok a ∧ f a = .ok b := by
  cases x with
  | error e =>
      constructor
      · intro h
        cases h
      · rintro ⟨a, h, -⟩
        cases h
  | ok a =>
      constructor
      · intro h
        exact ⟨a, rfl, h⟩
      · rintro ⟨a', h, hf⟩
        cases h
        exact hf

-- A failure is that of the first step or of what follows it.
theorem bind_eq_error {x : Except ε α} {f : α → Except ε β} {e : ε} :
    (x >>= f) = .error e ↔ x = .error e ∨ ∃ a, x = .ok a ∧ f a = .error e := by
  cases x <;> simp [bind, Except.bind]

-- The step after one that succeeds.
theorem bind_of_eq_ok {x : Except ε α} {f : α → Except ε β} {a : α} (h : x = .ok a) :
    (x >>= f) = f a := by
  rw [h]
  rfl

theorem map_eq_ok {x : Except ε α} {f : α → β} {b : β} :
    x.map f = .ok b ↔ ∃ a, x = .ok a ∧ f a = b := by
  cases x <;> simp [Except.map]

theorem map_eq_error {x : Except ε α} {f : α → β} {e : ε} : x.map f = .error e ↔ x = .error e := by
  cases x <;> simp [Except.map]

theorem toOption_eq_some {x : Except ε α} {a : α} : x.toOption = some a ↔ x = .ok a := by
  cases x <;> simp [Except.toOption]

theorem toOption_eq_none {x : Except ε α} : x.toOption = none ↔ ∃ e, x = .error e := by
  cases x <;> simp [Except.toOption]

theorem toOption_map (x : Except ε α) (f : α → β) : (x.map f).toOption = x.toOption.map f := by
  cases x <;> rfl

-- All steps of a list succeed, each with its result.
theorem mapM_eq_ok {f : α → Except ε β} {xs : List α} {ys : List β} :
    xs.mapM f = .ok ys ↔ List.Forall₂ (fun x y => f x = .ok y) xs ys := by
  induction xs generalizing ys with
  | nil =>
      rw [List.mapM_nil, List.forall₂_nil_left_iff]
      constructor
      · intro h
        cases h
        rfl
      · rintro rfl
        rfl
  | cons x xs ih =>
      rw [List.mapM_cons, List.forall₂_cons_left_iff]
      simp only [bind_eq_ok, ih]
      constructor
      · rintro ⟨y, hy, rest, hrest, h⟩
        cases h
        exact ⟨y, rest, hy, hrest, rfl⟩
      · rintro ⟨y, rest, hy, hrest, rfl⟩
        exact ⟨y, hy, rest, hrest, rfl⟩

-- What each step preserves, a run of them does.
theorem foldlM_preserves {f : β → α → Except ε β} {p : β → Prop} {xs : List α} {b b' : β}
    (hstep : ∀ x ∈ xs, ∀ b b', p b → f b x = .ok b' → p b') (h : xs.foldlM f b = .ok b')
    (hb : p b) : p b' := by
  induction xs generalizing b with
  | nil =>
      cases h
      exact hb
  | cons x xs ih =>
      rw [List.foldlM_cons] at h
      obtain ⟨next, hnext, h⟩ := bind_eq_ok.mp h
      have hp := hstep x List.mem_cons_self b next hb hnext
      exact ih (fun y hy => hstep y (List.mem_cons_of_mem x hy)) h hp

theorem mapM_eq_ok_map {f : α → Except ε β} {g : α → β} {xs : List α}
    (h : ∀ x ∈ xs, f x = .ok (g x)) : xs.mapM f = .ok (xs.map g) := by
  rw [mapM_eq_ok, List.forall₂_map_right_iff, List.forall₂_same]
  exact h

theorem exists_mapM_eq_ok {f : α → Except ε β} {xs : List α} (h : ∀ x ∈ xs, ∃ y, f x = .ok y) :
    ∃ ys, xs.mapM f = .ok ys := by
  simp only [mapM_eq_ok]
  induction xs with
  | nil => exact ⟨[], .nil⟩
  | cons x xs ih =>
      obtain ⟨y, hy⟩ := h x (by simp)
      obtain ⟨ys, hys⟩ := ih fun x hx => h x (List.mem_cons_of_mem _ hx)
      exact ⟨y :: ys, .cons hy hys⟩

theorem exists_eq_ok_of_mapM {f : α → Except ε β} {xs : List α} {ys : List β}
    (h : xs.mapM f = .ok ys) {x : α} (hx : x ∈ xs) : ∃ y, f x = .ok y := by
  have hsteps := mapM_eq_ok.mp h
  clear h
  induction hsteps with
  | nil => cases hx
  | @cons x' y' xs ys hstep _ ih =>
      cases List.mem_cons.mp hx with
      | inl heq => exact ⟨y', heq ▸ hstep⟩
      | inr hmem => exact ih hmem

theorem exists_of_mapM_eq_ok {f : α → Except ε β} {xs : List α} {ys : List β}
    (h : xs.mapM f = .ok ys) {y : β} (hy : y ∈ ys) : ∃ x ∈ xs, f x = .ok y := by
  have hsteps := mapM_eq_ok.mp h
  clear h
  induction hsteps with
  | nil => cases hy
  | @cons x y' xs ys hstep _ ih =>
      cases List.mem_cons.mp hy with
      | inl heq => exact ⟨x, List.mem_cons_self, heq ▸ hstep⟩
      | inr hmem =>
          obtain ⟨x', hx', hstep'⟩ := ih hmem
          exact ⟨x', List.mem_cons_of_mem x hx', hstep'⟩

-- Steps of a list fail with the first that does.
theorem mapM_eq_error {f : α → Except ε β} {xs : List α} {e : ε} :
    xs.mapM f = .error e ↔
      ∃ before x after, xs = before ++ x :: after ∧ (∀ y ∈ before, ∃ b, f y = .ok b) ∧
        f x = .error e := by
  constructor
  · intro h
    induction xs with
    | nil => cases h
    | cons x xs ih =>
        rw [List.mapM_cons] at h
        cases hx : f x with
        | error e' =>
            rw [hx] at h
            cases h
            exact ⟨[], x, xs, rfl, by simp, hx⟩
        | ok b =>
            rw [bind_of_eq_ok hx] at h
            cases hxs : xs.mapM f with
            | ok bs =>
                rw [hxs] at h
                cases h
            | error e' =>
                rw [hxs] at h
                cases h
                obtain ⟨before, y, after, rfl, hbefore, hy⟩ := ih hxs
                have hall := List.forall_mem_cons.mpr ⟨⟨b, hx⟩, hbefore⟩
                exact ⟨x :: before, y, after, rfl, hall, hy⟩
  · rintro ⟨before, x, after, rfl, hbefore, hx⟩
    obtain ⟨bs, hbs⟩ := exists_mapM_eq_ok hbefore
    rw [List.mapM_append, bind_of_eq_ok hbs, List.mapM_cons, hx]
    rfl

section Search

variable {γ : Type} {f : α → Except ε (Option β)} {xs : List α}

theorem findSomeM?_append (f : α → Except ε (Option β)) (xs ys : List α) :
    (xs ++ ys).findSomeM? f = (do
      match ← xs.findSomeM? f with
      | some b => return some b
      | none => ys.findSomeM? f) := by
  induction xs with
  | nil => rfl
  | cons x xs ih =>
      rw [List.cons_append, List.findSomeM?_cons, List.findSomeM?_cons]
      cases f x with
      | error e => rfl
      | ok found =>
          cases found with
          | none => exact ih
          | some b => rfl

theorem findSomeM?_singleton (f : α → Except ε (Option β)) (x : α) : [x].findSomeM? f = f x := by
  rw [List.findSomeM?_cons]
  cases f x with
  | error e => rfl
  | ok found => cases found <;> rfl

theorem findSomeM?_map (f : β → Except ε (Option γ)) (k : α → β) (xs : List α) :
    (xs.map k).findSomeM? f = xs.findSomeM? (f <| k ·) := by
  induction xs with
  | nil => rfl
  | cons x xs ih => rw [List.map_cons, List.findSomeM?_cons, List.findSomeM?_cons, ih]

-- What is done with the result of each element is done with the result of the search.
theorem findSomeM?_map_result {g : α → Except ε (Option γ)} (k : β → γ)
    (h : ∀ x ∈ xs, g x = (f x).map (Option.map k)) :
    xs.findSomeM? g = (xs.findSomeM? f).map (Option.map k) := by
  induction xs with
  | nil => rfl
  | cons x xs ih =>
      obtain ⟨hx, hxs⟩ := List.forall_mem_cons.mp h
      rw [List.findSomeM?_cons, List.findSomeM?_cons, hx]
      cases f x with
      | error e => rfl
      | ok found =>
          cases found with
          | none => exact ih hxs
          | some b => rfl

theorem findSomeM?_mapError {δ : Type} (g : ε → δ) (f : α → Except ε (Option β)) (xs : List α) :
    (xs.findSomeM? f).mapError g = xs.findSomeM? fun x => (f x).mapError g := by
  induction xs with
  | nil => rfl
  | cons x xs ih =>
      rw [List.findSomeM?_cons, List.findSomeM?_cons]
      cases f x with
      | error e => rfl
      | ok found =>
          cases found with
          | none => exact ih
          | some b => rfl

theorem findSomeM?_eq_ok_none : xs.findSomeM? f = .ok none ↔ ∀ x ∈ xs, f x = .ok none := by
  induction xs with
  | nil => simp [List.findSomeM?, pure, Except.pure]
  | cons x xs ih =>
      rw [List.findSomeM?_cons, List.forall_mem_cons, ← ih]
      cases f x with
      | error e => simp [bind, Except.bind]
      | ok found => cases found <;> simp [bind, Except.bind, pure, Except.pure]

-- The first element with a result counts.
theorem findSomeM?_eq_ok_some {b : β} :
    xs.findSomeM? f = .ok (some b) ↔
      ∃ front x back, xs = front ++ x :: back ∧ (∀ y ∈ front, f y = .ok none) ∧
        f x = .ok (some b) := by
  constructor
  · intro h
    induction xs with
    | nil => cases h
    | cons x xs ih =>
        rw [List.findSomeM?_cons] at h
        obtain ⟨found, hx, h⟩ := bind_eq_ok.mp h
        cases found with
        | none =>
            obtain ⟨front, y, back, rfl, hfront, hy⟩ := ih h
            exact ⟨x :: front, y, back, rfl, List.forall_mem_cons.mpr ⟨hx, hfront⟩, hy⟩
        | some b' =>
            cases h
            exact ⟨[], x, xs, rfl, by simp, hx⟩
  · rintro ⟨front, x, back, rfl, hfront, hx⟩
    rw [findSomeM?_append, bind_of_eq_ok (findSomeM?_eq_ok_none.mpr hfront), List.findSomeM?_cons,
      bind_of_eq_ok hx]
    rfl

theorem exists_of_findSomeM?_eq_ok {b : β} (h : xs.findSomeM? f = .ok (some b)) :
    ∃ x ∈ xs, f x = .ok (some b) := by
  obtain ⟨front, x, back, rfl, -, hx⟩ := findSomeM?_eq_ok_some.mp h
  exact ⟨x, by simp, hx⟩

end Search

section Failures

variable {p : ε → Prop}

-- Each error of a computation satisfies `p`.
def FailsOnlyWith (p : ε → Prop) (x : Except ε α) : Prop :=
  ∀ e, x = .error e → p e

theorem failsOnlyWith_ok (a : α) : FailsOnlyWith p (.ok a) := by
  rintro e ⟨⟩

theorem failsOnlyWith_error {e : ε} (h : p e) : FailsOnlyWith p (.error e : Except ε α) := by
  rintro e' ⟨⟩
  exact h

theorem FailsOnlyWith.bind {x : Except ε α} {f : α → Except ε β} (hx : FailsOnlyWith p x)
    (hf : ∀ a, FailsOnlyWith p (f a)) : FailsOnlyWith p (x >>= f) := by
  cases x with
  | error e => exact failsOnlyWith_error (hx e rfl)
  | ok a => exact hf a

theorem FailsOnlyWith.map {x : Except ε α} (hx : FailsOnlyWith p x) (f : α → β) :
    FailsOnlyWith p (x.map f) :=
  fun e h => hx e (map_eq_error.mp h)

theorem failsOnlyWith_mapM {f : α → Except ε β} (hf : ∀ a, FailsOnlyWith p (f a))
    (xs : List α) : FailsOnlyWith p (xs.mapM f) := by
  induction xs with
  | nil =>
      rw [List.mapM_nil]
      exact failsOnlyWith_ok []
  | cons x xs ih =>
      rw [List.mapM_cons]
      exact (hf x).bind fun y => ih.bind fun ys => failsOnlyWith_ok (y :: ys)

-- Each error of a computation satisfies `p`, and its result `q`.
def Ensures (p : ε → Prop) (q : α → Prop) : Except ε α → Prop
  | .error e => p e
  | .ok a => q a

variable {q : α → Prop} {r : β → Prop} {x : Except ε α}

theorem Ensures.bind {f : α → Except ε β} (hx : Ensures p q x)
    (hf : ∀ a, q a → Ensures p r (f a)) : Ensures p r (x >>= f) := by
  cases x with
  | error e => exact hx
  | ok a => exact hf a hx

theorem Ensures.map {f : α → β} (hx : Ensures p q x) (hf : ∀ a, q a → r (f a)) :
    Ensures p r (x.map f) := by
  cases x with
  | error e => exact hx
  | ok a => exact hf a hx

-- What each step ensures of a result that satisfies `r`, a run of them does.
theorem ensures_foldlM {f : β → α → Except ε β} {xs : List α} {b : β}
    (hstep : ∀ x ∈ xs, ∀ b, r b → Ensures p r (f b x)) (hb : r b) :
    Ensures p r (xs.foldlM f b) := by
  induction xs generalizing b with
  | nil => exact hb
  | cons x xs ih =>
      obtain ⟨hx, hxs⟩ := List.forall_mem_cons.mp hstep
      rw [List.foldlM_cons]
      exact (hx b hb).bind fun b' hb' => ih hxs hb'

end Failures

end HeadPercolation
