import LowBand.Lib.Run
import LowBand.Lib.Streak
import Mathlib.Algebra.Order.Group.Nat

/-!
# Hysteresis

A mode that is entered after `enter` pieces of evidence in a row and left after `leave` pieces of
evidence to the contrary in a row, counted with two counters. The mode is on exactly when it was
entered at some point of the history and the evidence to the contrary has not lasted long enough
since (`active_run_iff`).
-/

namespace Lib

/-- A mode with its two counters. -/
structure Hysteresis where
  /-- The mode is on. -/
  active : Bool
  /-- The pieces of evidence in a row. -/
  up : ℕ
  /-- The pieces of evidence to the contrary in a row. -/
  down : ℕ

namespace Hysteresis

variable {enter leave : ℕ}

/-- A mode that is off, with nothing seen. -/
def init : Hysteresis := ⟨false, 0, 0⟩

/-- One piece of evidence. -/
def step (enter leave : ℕ) (h : Hysteresis) (evidence : Bool) : Hysteresis :=
  let up := if evidence then h.up + 1 else 0
  let down := if evidence then 0 else h.down + 1
  let active :=
    if h.active = false ∧ enter ≤ up then true
    else if h.active = true ∧ leave ≤ down then false
    else h.active
  ⟨active, up, down⟩

/-- A run with one more step. -/
theorem run_concat (l : List Bool) (b : Bool) :
    run (step enter leave) init (l ++ [b]) = step enter leave (run (step enter leave) init l) b :=
  run_append _ _ _ _

/-- The counters hold the streaks. -/
theorem counters_run (l : List Bool) :
    (run (step enter leave) init l).up = streak id l ∧
      (run (step enter leave) init l).down = streak not l := by
  induction l using List.reverseRecOn with
  | nil => exact ⟨rfl, rfl⟩
  | append_singleton l b ih =>
    rw [run_concat, streak_concat, streak_concat, ← ih.1, ← ih.2]
    cases b <;> exact ⟨rfl, rfl⟩

/-- The mode is on exactly when it was entered, after `enter` pieces of evidence in a row, and since
then there were never `leave` pieces of evidence to the contrary in a row. -/
theorem active_run_iff (henter : 0 < enter) (hleave : 0 < leave) (l : List Bool) :
    (run (step enter leave) init l).active = true ↔
      ∃ pre post, l = pre ++ post ∧ enter ≤ streak id pre ∧
        ∀ m, m <+: post → streak not (pre ++ m) < leave := by
  induction l using List.reverseRecOn with
  | nil =>
    refine iff_of_false Bool.false_ne_true ?_
    rintro ⟨pre, post, hl, hpre, -⟩
    obtain ⟨rfl, -⟩ := List.append_eq_nil_iff.mp hl.symm
    rw [streak_nil] at hpre
    omega
  | append_singleton l b ih =>
    obtain ⟨hup, hdown⟩ := @counters_run enter leave l
    rw [run_concat]
    generalize run (step enter leave) init l = h at *
    -- The streaks with the new piece of evidence are what the step compares.
    have hup' : (step enter leave h b).up = streak id (l ++ [b]) := by
      rw [streak_concat, ← hup]
      cases b <;> rfl
    have hdown' : (step enter leave h b).down = streak not (l ++ [b]) := by
      rw [streak_concat, ← hdown]
      cases b <;> rfl
    have hactive : (step enter leave h b).active =
        if h.active = false ∧ enter ≤ streak id (l ++ [b]) then true
        else if h.active = true ∧ leave ≤ streak not (l ++ [b]) then false
        else h.active := by
      rw [← hup', ← hdown']
      rfl
    have hone : 0 < streak id (l ++ [b]) → streak not (l ++ [b]) = 0 := by
      rw [streak_concat, streak_concat]
      cases b <;> simp
    rw [hactive]
    constructor
    · intro hon
      by_cases hwas : h.active = true
      · -- The mode was on: the last entry counts still.
        have hstay : streak not (l ++ [b]) < leave := by
          by_contra hlong
          rw [if_neg (by simp [hwas]), if_pos ⟨hwas, by omega⟩] at hon
          cases hon
        obtain ⟨pre, post, rfl, hpre, hpost⟩ := ih.mp hwas
        refine ⟨pre, post ++ [b], List.append_assoc .., hpre, fun m hm => ?_⟩
        rcases List.prefix_concat_iff.mp hm with rfl | hm
        · rwa [← List.append_assoc]
        · exact hpost m hm
      · -- The mode is entered with this piece of evidence.
        have hoff : h.active = false := by simpa using hwas
        have hlong : enter ≤ streak id (l ++ [b]) := by
          by_contra hshort
          rw [if_neg fun hand => hshort hand.2, if_neg fun hand => hwas hand.1, hoff] at hon
          cases hon
        refine ⟨l ++ [b], [], (List.append_nil _).symm, hlong, fun m hm => ?_⟩
        rw [List.prefix_nil.mp hm, List.append_nil, hone (by omega)]
        exact hleave
    · rintro ⟨pre, post, hl, hpre, hpost⟩
      rcases List.eq_nil_or_concat post with rfl | ⟨post, c, rfl⟩
      · rw [List.append_nil] at hl
        rw [← hl] at hpre
        have hzero := hone (by omega)
        by_cases hwas : h.active = true
        · rw [if_neg (by simp [hwas]), if_neg (by omega), hwas]
        · rw [if_pos ⟨by simpa using hwas, hpre⟩]
      · rw [List.concat_eq_append, ← List.append_assoc] at hl
        obtain ⟨rfl, hb⟩ := List.append_inj' hl rfl
        obtain rfl := List.singleton_inj.mp hb
        have hwas : h.active = true := by
          refine ih.mpr ⟨pre, post, rfl, hpre, fun m hm => hpost m ?_⟩
          rw [List.concat_eq_append]
          exact hm.trans (List.prefix_append _ _)
        have hstay := hpost (post.concat b) (List.prefix_refl _)
        rw [List.concat_eq_append, ← List.append_assoc] at hstay
        rw [if_neg (by simp [hwas]), if_neg (by omega), hwas]

end Hysteresis

end Lib
