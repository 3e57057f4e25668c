import Mathlib.Algebra.Order.Archimedean.Basic
import Mathlib.Algebra.Order.Field.Basic
import Mathlib.Data.List.Forall2
import Mathlib.Data.List.Induction
import Mathlib.Tactic.FieldSimp
import Mathlib.Tactic.Linarith
import Mathlib.Tactic.Ring

/-!
# Exponential averages

`ewma α m xs` smooths the values of `xs` from a start `m`, where each new value has the weight `α`.
For a weight between zero and one the average stays between bounds of the values
(`ewma_mem_Icc`), it is strictly monotone in them (`ewma_eq_iff_of_le`), and on a constant sequence
its distance from the constant shrinks by a power of `1 - α` (`ewma_replicate_sub`), so it converges
(`exists_abs_ewma_replicate_sub_lt`).
-/

namespace Lib

variable {K : Type*} [Field K]

/-- The exponential average of values. -/
def ewma (α m : K) (xs : List K) : K := xs.foldl (fun m x => (1 - α) * m + α * x) m

variable {α m m' v lo hi : K} {xs ys : List K}

/-- The average before any sample. -/
@[simp]
theorem ewma_nil (α m : K) : ewma α m [] = m := rfl

/-- The first sample moves the start. -/
@[simp]
theorem ewma_cons (α m x : K) (xs : List K) :
    ewma α m (x :: xs) = ewma α ((1 - α) * m + α * x) xs := rfl

/-- The last sample enters with its weight. -/
theorem ewma_append_singleton (α m : K) (xs : List K) (x : K) :
    ewma α m (xs ++ [x]) = (1 - α) * ewma α m xs + α * x := by
  simp [ewma]

/-- On a constant sequence the distance shrinks by a power. -/
theorem ewma_replicate_sub (α m v : K) (n : ℕ) :
    ewma α m (List.replicate n v) - v = (1 - α) ^ n * (m - v) := by
  induction n with
  | zero => simp
  | succ n ih =>
    rw [List.replicate_succ', ewma_append_singleton, pow_succ']
    calc (1 - α) * ewma α m (List.replicate n v) + α * v - v
        = (1 - α) * (ewma α m (List.replicate n v) - v) := by ring
      _ = (1 - α) * (1 - α) ^ n * (m - v) := by rw [ih, mul_assoc]

variable [LinearOrder K] [IsStrictOrderedRing K]

/-- A step of the average stays between bounds. -/
theorem ewma_step_mem_Icc {x : K} (h0 : 0 < α) (h1 : α < 1) (hm : m ∈ Set.Icc lo hi)
    (hx : x ∈ Set.Icc lo hi) : (1 - α) * m + α * x ∈ Set.Icc lo hi := by
  have hrest : 0 ≤ 1 - α := by linarith
  have hlo : (1 - α) * lo + α * lo = lo := by ring
  have hhi : (1 - α) * hi + α * hi = hi := by ring
  constructor
  · calc lo = (1 - α) * lo + α * lo := hlo.symm
      _ ≤ (1 - α) * m + α * x :=
        add_le_add (mul_le_mul_of_nonneg_left hm.1 hrest) (mul_le_mul_of_nonneg_left hx.1 h0.le)
  · calc (1 - α) * m + α * x ≤ (1 - α) * hi + α * hi :=
        add_le_add (mul_le_mul_of_nonneg_left hm.2 hrest) (mul_le_mul_of_nonneg_left hx.2 h0.le)
      _ = hi := hhi

/-- The average stays between bounds of the start and the values. -/
theorem ewma_mem_Icc (h0 : 0 < α) (h1 : α < 1) (hm : m ∈ Set.Icc lo hi)
    (hxs : ∀ x ∈ xs, x ∈ Set.Icc lo hi) : ewma α m xs ∈ Set.Icc lo hi := by
  induction xs generalizing m with
  | nil => exact hm
  | cons x xs ih =>
    obtain ⟨hx, hxs⟩ := List.forall_mem_cons.mp hxs
    exact ih (ewma_step_mem_Icc h0 h1 hm hx) hxs

/-- Averages of two sequences, one at most the other, are equal exactly when the sequences are. -/
theorem ewma_eq_iff_of_le (h0 : 0 < α) (h1 : α < 1) (hm : m ≤ m')
    (hxs : List.Forall₂ (· ≤ ·) xs ys) : ewma α m xs = ewma α m' ys ↔ m = m' ∧ xs = ys := by
  have hrest : 0 < 1 - α := by linarith
  induction hxs generalizing m m' with
  | nil => simp
  | @cons x y xs ys hxy _ ih =>
    have hold := mul_le_mul_of_nonneg_left hm hrest.le
    have hnew := mul_le_mul_of_nonneg_left hxy h0.le
    refine (ih (add_le_add hold hnew)).trans ?_
    rw [List.cons.injEq]
    constructor
    · rintro ⟨heq, rfl⟩
      have hmm : (1 - α) * m = (1 - α) * m' := by linarith
      have hxx : α * x = α * y := by linarith
      exact ⟨mul_left_cancel₀ hrest.ne' hmm, mul_left_cancel₀ h0.ne' hxx, rfl⟩
    · rintro ⟨rfl, rfl, rfl⟩
      exact ⟨rfl, rfl⟩

/-- On a constant sequence the average converges. -/
theorem exists_abs_ewma_replicate_sub_lt [Archimedean K] (h0 : 0 < α) (h1 : α < 1) (m v : K)
    {ε : K} (hε : 0 < ε) :
    ∃ N, ∀ n, N ≤ n → |ewma α m (List.replicate n v) - v| < ε := by
  have hbase : 0 ≤ 1 - α := by linarith
  have hone : 1 - α < 1 := by linarith
  have hdist : 0 < |m - v| + 1 := by positivity
  obtain ⟨N, hN⟩ := exists_pow_lt_of_lt_one (div_pos hε hdist) hone
  refine ⟨N, fun n hn => ?_⟩
  rw [ewma_replicate_sub, abs_mul, abs_of_nonneg (pow_nonneg hbase n)]
  calc (1 - α) ^ n * |m - v| ≤ (1 - α) ^ N * |m - v| :=
        mul_le_mul_of_nonneg_right (pow_le_pow_of_le_one hbase hone.le hn) (abs_nonneg _)
    _ ≤ (1 - α) ^ N * (|m - v| + 1) :=
        mul_le_mul_of_nonneg_left (by linarith) (pow_nonneg hbase N)
    _ < ε / (|m - v| + 1) * (|m - v| + 1) := mul_lt_mul_of_pos_right hN hdist
    _ = ε := div_mul_cancel₀ ε hdist.ne'

end Lib
