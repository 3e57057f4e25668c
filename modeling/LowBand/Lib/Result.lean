import Mathlib.Logic.Basic

/-!
# Results

Rust's `Result` is `Except`, with `?` as its bind. `bind_eq_ok` takes a successful computation
apart at a `?`, and `mem_of_mapM_eq_ok` takes a successful collection of results apart at its
elements. `Returns` says that a computation succeeds, whatever its value, and `returns_bind_iff`
takes that apart at a `?`.
-/

namespace Lib

universe u v

variable {ε : Type u} {α β : Type v}

/-- A computation after a successful `?`. -/
theorem ok_bind (a : α) (f : α → Except ε β) : (Except.ok a : Except ε α) >>= f = f a := rfl

/-- A computation after `?` succeeds when the first part does and the rest succeeds on its value. -/
theorem bind_eq_ok {x : Except ε α} {f : α → Except ε β} {b : β} :
    x >>= f = .ok b ↔ ∃ a, x = .ok a ∧ f a = .ok b := by
  cases x with
  | error e => simp [bind, Except.bind]
  | ok a => simp [bind, Except.bind]

/-- The computation succeeds. -/
def Returns (x : Except ε α) : Prop := ∃ a, x = .ok a

/-- A value is returned. -/
theorem returns_ok (a : α) : Returns (Except.ok a : Except ε α) := ⟨a, rfl⟩

/-- An error is not. -/
theorem not_returns_error (e : ε) : ¬ Returns (Except.error e : Except ε α) := nofun

/-- When the rest of a computation succeeds on every value under one condition, the whole succeeds
when the first part does and the condition holds. -/
theorem returns_bind_iff {x : Except ε α} {f : α → Except ε β} {p : Prop}
    (h : ∀ a, x = .ok a → (Returns (f a) ↔ p)) : Returns (x >>= f) ↔ Returns x ∧ p := by
  cases x with
  | error e => exact iff_of_false (not_returns_error e) fun hx => not_returns_error e hx.1
  | ok a =>
    rw [ok_bind, h a rfl]
    exact (and_iff_right (returns_ok a)).symm

/-- A result mapped by a function succeeds when it does. -/
theorem map_eq_ok {x : Except ε α} {f : α → β} {b : β} :
    f <$> x = .ok b ↔ ∃ a, x = .ok a ∧ f a = b := by
  cases x with
  | error e => simp [Functor.map, Except.map]
  | ok a => simp [Functor.map, Except.map]

/-- A result with its error mapped succeeds when it does. -/
theorem mapError_eq_ok {ε' : Type u} {x : Except ε α} {f : ε → ε'} {a : α} :
    x.mapError f = .ok a ↔ x = .ok a := by
  cases x with
  | error e => exact iff_of_false nofun nofun
  | ok b =>
    constructor
    · rintro ⟨⟩
      rfl
    · rintro ⟨⟩
      rfl

/-- The error of a computation is mapped in both its parts. -/
theorem mapError_bind {ε' : Type u} {x : Except ε α} {g : α → Except ε β} {f : ε → ε'} :
    (x >>= g).mapError f = x.mapError f >>= fun a => (g a).mapError f := by
  cases x with
  | error e => rfl
  | ok a => rfl

/-- Mapping the error twice. -/
theorem mapError_mapError {ε' ε'' : Type u} {x : Except ε α} {f : ε → ε'} {g : ε' → ε''} :
    (x.mapError f).mapError g = x.mapError (g ∘ f) := by
  cases x with
  | error e => rfl
  | ok a => rfl

/-- When results are collected successfully, each one is the value of an element of the list, and
each element has its value among them. -/
theorem mem_of_mapM_eq_ok {f : α → Except ε β} {l : List α} {l' : List β}
    (h : l.mapM f = .ok l') :
    (∀ a ∈ l, ∃ b ∈ l', f a = .ok b) ∧ ∀ b ∈ l', ∃ a ∈ l, f a = .ok b := by
  -- By induction on the list: the head must succeed before the rest is tried.
  induction l generalizing l' with
  | nil =>
    obtain rfl := Except.ok.inj h
    simp
  | cons a l ih =>
    rw [List.mapM_cons] at h
    obtain ⟨b, hb, h⟩ := bind_eq_ok.mp h
    obtain ⟨bs, hbs, h⟩ := bind_eq_ok.mp h
    obtain rfl := Except.ok.inj h
    obtain ⟨hto, hof⟩ := ih hbs
    constructor
    · rintro x (_ | ⟨_, hx⟩)
      · exact ⟨b, List.mem_cons_self, hb⟩
      · obtain ⟨y, hy, hxy⟩ := hto x hx
        exact ⟨y, List.mem_cons_of_mem _ hy, hxy⟩
    · rintro y (_ | ⟨_, hy⟩)
      · exact ⟨a, List.mem_cons_self, hb⟩
      · obtain ⟨x, hx, hxy⟩ := hof y hy
        exact ⟨x, List.mem_cons_of_mem _ hx, hxy⟩

end Lib
