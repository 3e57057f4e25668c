import Mathlib.Algebra.BigOperators.Group.List.Basic
import Mathlib.Algebra.Order.Sub.Basic
import Mathlib.Data.List.Forall2

/-!
# Strict priority

A total is divided over claimants in the order of their priority: each is given what is left, up to
its cap. The shares and what is left in the end make up the total (`sum_shares_add`), each share
grows with the total (`shares_mono`), and a claimant is given something only when those before it
are at their caps (`eq_cap_of_share_pos`).
-/

namespace Lib

variable {α : Type*} [LinearOrder α] [Sub α]

/-- What each claimant is given, for the caps in the order of priority. -/
def shares : List α → α → List α
  | [], _ => []
  | cap :: caps, total => min total cap :: shares caps (total - min total cap)

/-- There is a share for each cap. -/
@[simp]
theorem length_shares (caps : List α) (total : α) : (shares caps total).length = caps.length := by
  induction caps generalizing total with
  | nil => rfl
  | cons cap caps ih => simp [shares, ih]

variable [AddCommMonoid α] [CanonicallyOrderedAdd α] [OrderedSub α]

/-- What a capped claimant leaves. -/
theorem sub_min_cap (total cap : α) : total - min total cap = total - cap := by
  rcases le_total total cap with h | h
  · rw [min_eq_left h, tsub_self, tsub_eq_zero_of_le h]
  · rw [min_eq_right h]

/-- Nothing is lost and nothing is given twice. -/
theorem sum_shares_add (caps : List α) (total : α) :
    (shares caps total).sum + (total - caps.sum) = total := by
  induction caps generalizing total with
  | nil => simp [shares]
  | cons cap caps ih =>
    calc (shares (cap :: caps) total).sum + (total - (cap :: caps).sum)
        = min total cap + ((shares caps (total - min total cap)).sum +
            (total - min total cap - caps.sum)) := by
          rw [shares, List.sum_cons, List.sum_cons, add_assoc, sub_min_cap, tsub_tsub]
      _ = min total cap + (total - min total cap) := by rw [ih]
      _ = total := add_tsub_cancel_of_le (min_le_left _ _)

/-- A larger total gives every claimant at least as much. -/
theorem shares_mono {caps : List α} {total total' : α} (h : total ≤ total') :
    List.Forall₂ (· ≤ ·) (shares caps total) (shares caps total') := by
  induction caps generalizing total total' with
  | nil => exact .nil
  | cons cap caps ih =>
    refine .cons (min_le_min_right cap h) (ih ?_)
    rw [sub_min_cap, sub_min_cap]
    exact tsub_le_tsub_right h cap

/-- Where nothing is left, nothing is given. -/
theorem share_zero {caps : List α} {i : ℕ} {x : α} (h : (shares caps 0)[i]? = some x) : x = 0 := by
  induction caps generalizing i with
  | nil => simp [shares] at h
  | cons cap caps ih =>
    rw [shares, tsub_eq_zero_of_le zero_le] at h
    cases i with
    | zero => simpa using h.symm
    | succ i => exact ih (by simpa using h)

/-- A claimant that is given something comes after claimants at their caps. -/
theorem eq_cap_of_share_pos {caps : List α} {total : α} {i j : ℕ} {x y cap : α} (hij : i < j)
    (hx : (shares caps total)[i]? = some x) (hcap : caps[i]? = some cap)
    (hy : (shares caps total)[j]? = some y) (hpos : 0 < y) : x = cap := by
  induction caps generalizing total i j with
  | nil => simp at hcap
  | cons c caps ih =>
    obtain ⟨j, rfl⟩ : ∃ k, j = k + 1 := ⟨j - 1, by omega⟩
    cases i with
    | zero =>
      simp only [shares, List.getElem?_cons_zero, Option.some.injEq] at hx hcap
      subst hx hcap
      -- What the first leaves is not nothing, so it is not all that there was.
      by_contra hne
      have hle : total ≤ c := by
        by_contra hlt
        exact hne (min_eq_right (not_le.mp hlt).le)
      rw [shares, List.getElem?_cons_succ, min_eq_left hle, tsub_self] at hy
      exact hpos.ne' (share_zero hy)
    | succ i =>
      simp only [shares, List.getElem?_cons_succ] at hx hcap hy
      exact ih (Nat.lt_of_succ_lt_succ hij) hx hcap hy

/-- The claimants at the end divide what those before them leave. -/
theorem shares_append (caps caps' : List α) (total : α) :
    shares (caps ++ caps') total = shares caps total ++ shares caps' (total - caps.sum) := by
  induction caps generalizing total with
  | nil => simp [shares]
  | cons cap caps ih => simp [shares, ih, sub_min_cap, tsub_tsub]

end Lib
