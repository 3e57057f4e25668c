import Mathlib.Data.Int.Notation
import Mathlib.Data.Nat.Notation
import Mathlib.Tactic.Common

/-!
# Numbers of single precision

The casts between integers and `f32`, and rounding as Rust has it: halves go away from zero, numbers
that are too large for a word stop at its bound, and what is not a number becomes zero. A sum with
nothing but zeros left, of either sign, is complete (`foldl_add_zeros`).
-/

namespace Lib

/-- The cast of a natural number to `f32`. -/
def asF32 (n : ℕ) : Float32 := (UInt64.ofNat n).toFloat32

/-- The cast of an integer to `f32`. -/
def intAsF32 (z : ℤ) : Float32 := if z < 0 then -asF32 z.natAbs else asF32 z.natAbs

/-- The nearest integer, with halves away from zero, up to the bound of a word. -/
def roundF32 (x : Float32) : ℤ :=
  let whole := x.abs.toUInt64
  -- What is left after truncation is exact, so that it can be compared with one half.
  let n : ℕ := if x.abs - whole.toFloat32 ≥ 0.5 then whole.toNat + 1 else whole.toNat
  if x < 0 then -n else n

/-- Zero, of either sign. -/
def IsZero (x : Float32) : Prop := x = 0 ∨ x = -0

/-- Whether a number is zero can be decided. -/
instance (x : Float32) : Decidable (IsZero x) := inferInstanceAs (Decidable (_ ∨ _))

/-- Zeros add nothing to a sum that neither of the two zeros changes. -/
theorem foldl_add_zeros {α : Type*} {f : α → Float32} {s : Float32} {l : List α}
    (hs : ∀ z, IsZero z → s + z = s) (hl : ∀ a ∈ l, IsZero (f a)) :
    l.foldl (fun s a => s + f a) s = s := by
  induction l with
  | nil => rfl
  | cons a l ih =>
    obtain ⟨ha, hl⟩ := List.forall_mem_cons.mp hl
    rw [List.foldl_cons, hs _ ha]
    exact ih hl

end Lib
