import Mathlib.Algebra.Order.Round
import Mathlib.Tactic.Ring

/-!
# Rounding with halves away from zero

`roundAway x` is the integer next to `x`, and the one farther from zero when two are equally near,
as floating-point libraries round. Mathlib's `round` takes the upper one instead. The two differ at
halves of negative numbers only; the error is at most one half in either case (`abs_sub_roundAway`).
-/

namespace Lib

variable {α : Type*} [Field α] [LinearOrder α] [IsStrictOrderedRing α] [FloorRing α]

/-- The nearest integer, with halves away from zero. -/
def roundAway (x : α) : ℤ := if 0 ≤ x then round x else -round (-x)

/-- Rounding changes a number by at most one half. -/
theorem abs_sub_roundAway (x : α) : |x - roundAway x| ≤ 1 / 2 := by
  unfold roundAway
  split
  · exact abs_sub_round x
  · have h := abs_sub_round (-x)
    have hneg : x - ((-round (-x) : ℤ) : α) = -(-x - round (-x)) := by
      push_cast
      ring
    rw [hneg, abs_neg]
    exact h

/-- Integers are left as they are. -/
@[simp]
theorem roundAway_intCast (z : ℤ) : roundAway (z : α) = z := by
  unfold roundAway
  split
  · exact round_intCast z
  · rw [← Int.cast_neg, round_intCast, neg_neg]

end Lib
