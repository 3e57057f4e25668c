import Mathlib.Algebra.BigOperators.Group.List.Basic
import Mathlib.Algebra.Order.Group.Int
import Mathlib.Algebra.Ring.Int.Defs
import Mathlib.Data.List.Induction
import Mathlib.Order.Lattice

/-!
# Saturating sums

A sum that saturates at every addition, between two rails around zero, and the clamp of the exact
sum are not the same: what an addition clips is lost to the ones after it. The difference of the
exact and the saturating sum is above a number `d ≥ 0` exactly when some running sum is above the
upper rail by more than `d` and no later one is as low as the lower rail and `d`
(`lt_sum_sub_satSum_iff`). So the saturating sum is the clamp of the exact one exactly when every
running sum that leaves the range, moved to where the exact sum is, is made up for by a later one at
the other end (`satSum_eq_clampTo_iff`).
-/

namespace Lib

/-- The clamp to the range from `lo` to `hi`. -/
def clampTo (lo hi x : ℤ) : ℤ := max lo (min x hi)

/-- The sum that is clamped after every addition. -/
def satSum (lo hi : ℤ) (xs : List ℤ) : ℤ := xs.foldl (fun s x => clampTo lo hi (s + x)) 0

/-- The sum of the first `k` numbers. -/
def runningSum (xs : List ℤ) (k : ℕ) : ℤ := (xs.take k).sum

/-- Some running sum is above `hi + d`, and all later ones are above `lo + d`. -/
def Escapes (lo hi d : ℤ) (xs : List ℤ) : Prop :=
  ∃ k ≤ xs.length, hi + d < runningSum xs k ∧
    ∀ v, k < v → v ≤ xs.length → lo + d < runningSum xs v

variable {lo hi d : ℤ} {xs : List ℤ}

/-- The last term is added and clamped. -/
theorem satSum_append (lo hi : ℤ) (xs : List ℤ) (x : ℤ) :
    satSum lo hi (xs ++ [x]) = clampTo lo hi (satSum lo hi xs + x) := by
  simp [satSum]

/-- The sum stays between the rails. -/
theorem satSum_mem (hlo : lo ≤ 0) (hhi : 0 ≤ hi) (xs : List ℤ) :
    lo ≤ satSum lo hi xs ∧ satSum lo hi xs ≤ hi := by
  induction xs using List.reverseRecOn with
  | nil => exact ⟨hlo, hhi⟩
  | append_singleton xs x ih =>
    rw [satSum_append, clampTo]
    omega

/-- The last running sum is the sum. -/
theorem runningSum_length (xs : List ℤ) : runningSum xs xs.length = xs.sum := by
  rw [runningSum, List.take_length]

/-- A term at the end leaves the running sums before it. -/
theorem runningSum_append {k : ℕ} (h : k ≤ xs.length) (x : ℤ) :
    runningSum (xs ++ [x]) k = runningSum xs k := by
  rw [runningSum, List.take_append_of_le_length h, runningSum]

/-- One more number: it escapes itself, or it lets an escape go on. -/
theorem escapes_append (x : ℤ) :
    Escapes lo hi d (xs ++ [x]) ↔
      (Escapes lo hi d xs ∧ lo + d < xs.sum + x) ∨ hi + d < xs.sum + x := by
  have hlen : (xs ++ [x]).length = xs.length + 1 := List.length_append
  have hlast : runningSum (xs ++ [x]) (xs.length + 1) = xs.sum + x := by
    rw [← hlen, runningSum_length, List.sum_append, List.sum_singleton]
  constructor
  · rintro ⟨k, hk, hup, hlater⟩
    rw [hlen] at hk hlater
    -- The escape is at the new value or was one before it.
    by_cases heq : k = xs.length + 1
    · rw [heq, hlast] at hup
      exact .inr hup
    · refine .inl ⟨⟨k, by omega, ?_, fun v hkv hv => ?_⟩, ?_⟩
      · rwa [runningSum_append (by omega)] at hup
      · have := hlater v hkv (by omega)
        rwa [runningSum_append hv] at this
      · rw [← hlast]
        exact hlater _ (by omega) le_rfl
  -- An old escape lasts while the new sum stays above the lower end.
  · rintro (⟨⟨k, hk, hup, hlater⟩, hlow⟩ | hup)
    · refine ⟨k, by omega, by rwa [runningSum_append hk], fun v hkv hv => ?_⟩
      rw [hlen] at hv
      by_cases heq : v = xs.length + 1
      · rwa [heq, hlast]
      · rw [runningSum_append (by omega)]
        exact hlater v hkv (by omega)
    · exact ⟨xs.length + 1, hlen.ge, by rwa [hlast], fun v hkv hv => by omega⟩

/-- What is lost at the upper rail and not made up for at the lower one is more than `d` exactly if
a running sum escapes. -/
theorem lt_sum_sub_satSum_iff (hlo : lo ≤ 0) (hhi : 0 ≤ hi) (hd : 0 ≤ d) (xs : List ℤ) :
    d < xs.sum - satSum lo hi xs ↔ Escapes lo hi d xs := by
  induction xs using List.reverseRecOn with
  | nil =>
    have hnone : ¬ Escapes lo hi d [] := by
      rintro ⟨k, -, hup, -⟩
      rw [runningSum, List.take_nil, List.sum_nil] at hup
      omega
    simp only [satSum, List.sum_nil, List.foldl_nil, hnone, iff_false]
    omega
  | append_singleton xs x ih =>
    have hmem := satSum_mem hlo hhi xs
    rw [escapes_append, ← ih, satSum_append, List.sum_append, List.sum_singleton, clampTo]
    omega

/-- The negated numbers between the negated rails have the negated sum. -/
theorem satSum_neg (hlo : lo ≤ hi) (xs : List ℤ) :
    satSum (-hi) (-lo) (xs.map (- ·)) = - satSum lo hi xs := by
  induction xs using List.reverseRecOn with
  | nil => rfl
  | append_singleton xs x ih =>
    rw [List.map_append, List.map_singleton, satSum_append, satSum_append, ih, clampTo, clampTo]
    omega

/-- The sum of the negated terms. -/
theorem sum_map_neg (xs : List ℤ) : (xs.map (- ·)).sum = - xs.sum := by
  induction xs with
  | nil => rfl
  | cons x xs ih =>
    rw [List.map_cons, List.sum_cons, List.sum_cons, ih]
    omega

/-- Their running sums. -/
theorem runningSum_neg (xs : List ℤ) (k : ℕ) :
    runningSum (xs.map (- ·)) k = - runningSum xs k := by
  rw [runningSum, ← List.map_take, sum_map_neg, runningSum]

/-- By how much the range has to be moved to contain the number. -/
def excess (lo hi x : ℤ) : ℤ := x - clampTo lo hi x

/-- Every running sum above the range, moved to contain the whole sum, comes before one at or below
the lower end of it, and every one below comes before one at or above the upper end. -/
def Balanced (lo hi : ℤ) (xs : List ℤ) : Prop :=
  (∀ k ≤ xs.length, hi + excess lo hi xs.sum < runningSum xs k →
    ∃ v, k < v ∧ v ≤ xs.length ∧ runningSum xs v ≤ lo + excess lo hi xs.sum) ∧
  ∀ k ≤ xs.length, runningSum xs k < lo + excess lo hi xs.sum →
    ∃ v, k < v ∧ v ≤ xs.length ∧ hi + excess lo hi xs.sum ≤ runningSum xs v

/-- The first half of `Balanced`: nothing is lost at the upper rail for good. -/
theorem sum_sub_satSum_le_excess_iff (hlo : lo ≤ 0) (hhi : 0 ≤ hi) (xs : List ℤ) :
    xs.sum - satSum lo hi xs ≤ excess lo hi xs.sum ↔
      ∀ k ≤ xs.length, hi + excess lo hi xs.sum < runningSum xs k →
        ∃ v, k < v ∧ v ≤ xs.length ∧ runningSum xs v ≤ lo + excess lo hi xs.sum := by
  -- The excess decides whether the sum ends above or below the range.
  by_cases hd : 0 ≤ excess lo hi xs.sum
  · rw [← not_lt, lt_sum_sub_satSum_iff hlo hhi hd, Escapes]
    push Not
    rfl
  · -- The whole sum is below the range, so it is at the lower end of the range moved.
    have hsum : xs.sum = lo + excess lo hi xs.sum := by
      unfold excess clampTo at hd ⊢
      omega
    have hmem := satSum_mem hlo hhi xs
    refine iff_of_true (by omega) fun k hk hup => ⟨xs.length, ?_, le_rfl, ?_⟩
    · rcases Nat.lt_or_eq_of_le hk with hlt | rfl
      · exact hlt
      · rw [runningSum_length] at hup
        omega
    · rw [runningSum_length]
      exact hsum.le

/-- The saturating sum is the clamp of the exact sum exactly for the balanced lists. -/
theorem satSum_eq_clampTo_iff (hlo : lo ≤ 0) (hhi : 0 ≤ hi) (xs : List ℤ) :
    satSum lo hi xs = clampTo lo hi xs.sum ↔ Balanced lo hi xs := by
  have hexcess : excess (-hi) (-lo) (- xs.sum) = - excess lo hi xs.sum := by
    unfold excess clampTo
    omega
  have hupper := sum_sub_satSum_le_excess_iff hlo hhi xs
  -- The lower rail is the upper one of the negated numbers.
  have hneg := @sum_sub_satSum_le_excess_iff (-hi) (-lo) (by omega) (by omega) (xs.map (- ·))
  simp only [List.length_map, runningSum_neg, sum_map_neg, satSum_neg (hlo.trans hhi), hexcess]
    at hneg
  have hlower : excess lo hi xs.sum ≤ xs.sum - satSum lo hi xs ↔
      ∀ k ≤ xs.length, runningSum xs k < lo + excess lo hi xs.sum →
        ∃ v, k < v ∧ v ≤ xs.length ∧ hi + excess lo hi xs.sum ≤ runningSum xs v := by
    have hflip : excess lo hi xs.sum ≤ xs.sum - satSum lo hi xs ↔
        -xs.sum - -satSum lo hi xs ≤ -excess lo hi xs.sum := by omega
    rw [hflip, hneg]
    refine forall₂_congr fun k _ => imp_congr (by omega) (exists_congr fun v => ?_)
    exact and_congr_right' (and_congr_right' (by omega))
  have hsplit : satSum lo hi xs = clampTo lo hi xs.sum ↔
      xs.sum - satSum lo hi xs ≤ excess lo hi xs.sum ∧
        excess lo hi xs.sum ≤ xs.sum - satSum lo hi xs := by
    unfold excess
    omega
  rw [hsplit, hupper, hlower, Balanced]

end Lib
