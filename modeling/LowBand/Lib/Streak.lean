import Mathlib.Data.List.Induction

/-!
# Streaks

The streak of a history is the number of entries at its end that all meet a condition. A counter
that counts up on such an entry and goes back to zero on any other holds the streak
(`streak_concat`). A streak of at least `n` means that the last `n` entries meet the condition
(`le_streak_iff`).
-/

namespace Lib

variable {α : Type*} (p : α → Bool)

/-- The number of entries at the end of `l` that all meet `p`. -/
def streak (l : List α) : ℕ := (l.reverse.takeWhile p).length

/-- There is no streak in an empty history. -/
@[simp]
theorem streak_nil : streak p [] = 0 := rfl

/-- One more entry makes the streak longer by one or ends it. -/
theorem streak_concat (l : List α) (x : α) :
    streak p (l ++ [x]) = if p x then streak p l + 1 else 0 := by
  unfold streak
  rw [List.reverse_append, List.reverse_singleton, List.singleton_append, List.takeWhile_cons]
  split <;> rfl

variable {p}

/-- The streak has at least `n` entries when the last `n` entries meet the condition. -/
theorem le_streak_iff {l : List α} {n : ℕ} :
    n ≤ streak p l ↔ ∃ a b, l = a ++ b ∧ b.length = n ∧ ∀ x ∈ b, p x = true := by
  -- By induction on the list, the last value first.
  induction l using List.reverseRecOn generalizing n with
  | nil =>
    rw [streak_nil, Nat.le_zero]
    constructor
    · rintro rfl
      exact ⟨[], [], rfl, rfl, by simp⟩
    · rintro ⟨a, b, hab, rfl, -⟩
      rw [(List.append_eq_nil_iff.mp hab.symm).2, List.length_nil]
  | append_singleton l x ih =>
    cases n with
    | zero => exact iff_of_true (Nat.zero_le _) ⟨l ++ [x], [], by simp, rfl, by simp⟩
    | succ n =>
      rw [streak_concat]
      constructor
      · intro h
        -- A streak of at least one ends in a value that has the property.
        have hx : p x = true := by
          by_contra hx
          rw [if_neg hx] at h
          exact Nat.not_succ_le_zero n h
        rw [if_pos hx, Nat.add_le_add_iff_right] at h
        obtain ⟨a, b, rfl, rfl, hb⟩ := ih.mp h
        refine ⟨a, b ++ [x], List.append_assoc .., List.length_append, ?_⟩
        simpa [or_imp, forall_and] using ⟨hb, hx⟩
      · rintro ⟨a, b, hab, hlen, hb⟩
        rcases List.eq_nil_or_concat b with rfl | ⟨b, y, rfl⟩
        · exact absurd hlen (Nat.succ_ne_zero n).symm
        · rw [List.concat_eq_append, ← List.append_assoc] at hab
          obtain ⟨rfl, hy⟩ := List.append_inj' hab rfl
          obtain rfl := List.singleton_inj.mp hy
          simp only [List.concat_eq_append, List.length_append, List.length_singleton,
            Nat.add_right_cancel_iff] at hlen
          rw [if_pos (hb x (by simp)), Nat.add_le_add_iff_right]
          exact ih.mpr ⟨a, b, rfl, hlen, fun z hz => hb z (by simp [hz])⟩

end Lib
