import Mathlib.Algebra.Order.Group.Nat
import Mathlib.Order.Monotone.Basic
import Mathlib.Tactic.Set

/-!
# Keeping a NAT binding

`NatKeepaliveController` of `core/lbtp/src/nat_keepalive.rs`, in the loop that its documentation
prescribes: one tick at a time, and a new interval from a random source after each keepalive.

Whatever intervals the source gives, every 250 consecutive ticks have a keepalive, so that the
binding does not expire, and no 150 have two (`keepalive_window`).
-/

namespace LowBand.Lbtp

/-- `NAT_KEEPALIVE_MIN_TICKS`. -/
def natKeepaliveMinTicks : ℕ := 150

/-- `NAT_KEEPALIVE_MAX_TICKS`. -/
def natKeepaliveMaxTicks : ℕ := 250

/-- `clamp` to the interval that the controller allows. -/
def clampInterval (intervalTicks : ℕ) : ℕ :=
  max natKeepaliveMinTicks (min intervalTicks natKeepaliveMaxTicks)

/-- `NatKeepaliveController`. -/
structure NatKeepaliveController where
  /-- The ticks until the keepalive; none when it is disarmed. -/
  ticksRemaining : ℕ
deriving DecidableEq

namespace NatKeepaliveController

/-- `NatKeepaliveController::new`. -/
def new (intervalTicks : ℕ) : NatKeepaliveController := ⟨clampInterval intervalTicks⟩

/-- `NatKeepaliveController::tick`: whether a keepalive is due. -/
def tick (c : NatKeepaliveController) : Bool × NatKeepaliveController :=
  if c.ticksRemaining = 0 then (false, c)
  else (c.ticksRemaining - 1 == 0, ⟨c.ticksRemaining - 1⟩)

/-- `NatKeepaliveController::reset`. -/
def reset (_ : NatKeepaliveController) (intervalTicks : ℕ) : NatKeepaliveController :=
  ⟨clampInterval intervalTicks⟩

end NatKeepaliveController

/-- The event loop: how many keepalives were sent, and the controller. -/
structure KeepaliveLoop where
  /-- The keepalives sent. -/
  sent : ℕ
  /-- The controller. -/
  ctrl : NatKeepaliveController

namespace KeepaliveLoop

variable (jitter : ℕ → ℕ)

/-- The loop starts with the first interval. -/
def init : KeepaliveLoop := ⟨0, .new (jitter 0)⟩

/-- A tick of the loop. After a keepalive the controller gets the next interval. -/
def step (l : KeepaliveLoop) : KeepaliveLoop :=
  match l.ctrl.tick with
  | (true, ctrl) => ⟨l.sent + 1, ctrl.reset (jitter (l.sent + 1))⟩
  | (false, ctrl) => ⟨l.sent, ctrl⟩

/-- The loop after `n` ticks. -/
def after : ℕ → KeepaliveLoop
  | 0 => init jitter
  | n + 1 => (after n).step jitter

variable {jitter}

/-- An interval is clamped to its bounds. -/
theorem clampInterval_mem (intervalTicks : ℕ) :
    150 ≤ clampInterval intervalTicks ∧ clampInterval intervalTicks ≤ 250 := by
  unfold clampInterval natKeepaliveMinTicks natKeepaliveMaxTicks
  omega

/-- Between two keepalives the controller counts down. -/
theorem step_of_lt {l : KeepaliveLoop} (h : 1 < l.ctrl.ticksRemaining) :
    (l.step jitter).sent = l.sent ∧
      (l.step jitter).ctrl.ticksRemaining = l.ctrl.ticksRemaining - 1 := by
  have hzero : l.ctrl.ticksRemaining ≠ 0 := by omega
  have hone : (l.ctrl.ticksRemaining - 1 == 0) = false := by
    rw [beq_eq_false_iff_ne]
    omega
  simp [step, NatKeepaliveController.tick, hzero, hone]

/-- The last tick of a countdown sends a keepalive and begins the next. -/
theorem step_of_eq {l : KeepaliveLoop} (h : l.ctrl.ticksRemaining = 1) :
    (l.step jitter).sent = l.sent + 1 ∧ 150 ≤ (l.step jitter).ctrl.ticksRemaining := by
  simp [step, NatKeepaliveController.tick, NatKeepaliveController.reset, h,
    (clampInterval_mem _).1]

/-- The controller is always armed, for 250 ticks at most. -/
theorem armed (n : ℕ) :
    0 < (after jitter n).ctrl.ticksRemaining ∧ (after jitter n).ctrl.ticksRemaining ≤ 250 := by
  induction n with
  | zero =>
    obtain ⟨hmin, hmax⟩ := clampInterval_mem (jitter 0)
    exact ⟨Nat.lt_of_lt_of_le (by decide) hmin, hmax⟩
  | succ n ih =>
    obtain ⟨hpos, hmax⟩ := ih
    by_cases hone : (after jitter n).ctrl.ticksRemaining = 1
    · have hnext : (after jitter (n + 1)).ctrl =
          ⟨clampInterval (jitter ((after jitter n).sent + 1))⟩ := by
        simp [after, step, NatKeepaliveController.tick, NatKeepaliveController.reset, hone]
      obtain ⟨hmin', hmax'⟩ := clampInterval_mem (jitter ((after jitter n).sent + 1))
      rw [hnext]
      exact ⟨Nat.lt_of_lt_of_le (by decide) hmin', hmax'⟩
    · obtain ⟨-, hleft⟩ := @step_of_lt jitter (after jitter n) (by omega)
      rw [after, hleft]
      omega

/-- Until the countdown of a state ends, nothing is sent. -/
theorem after_add_of_lt {n m : ℕ} (h : m < (after jitter n).ctrl.ticksRemaining) :
    (after jitter (n + m)).sent = (after jitter n).sent ∧
      (after jitter (n + m)).ctrl.ticksRemaining = (after jitter n).ctrl.ticksRemaining - m := by
  induction m with
  | zero => exact ⟨rfl, rfl⟩
  | succ m ih =>
    obtain ⟨hsent, hleft⟩ := ih (by omega)
    obtain ⟨hsent', hleft'⟩ := @step_of_lt jitter (after jitter (n + m)) (by omega)
    show ((after jitter (n + m)).step jitter).sent = _ ∧ _ = _
    rw [hsent', hsent]
    refine ⟨rfl, hleft'.trans ?_⟩
    omega

/-- When the countdown of a state ends, one keepalive is sent, and the next is 150 ticks away at
least. -/
theorem after_add_remaining (n : ℕ) :
    (after jitter (n + (after jitter n).ctrl.ticksRemaining)).sent = (after jitter n).sent + 1 ∧
      150 ≤ (after jitter (n + (after jitter n).ctrl.ticksRemaining)).ctrl.ticksRemaining := by
  obtain ⟨m, hm⟩ := Nat.exists_eq_add_of_lt (@armed jitter n).1
  rw [Nat.zero_add] at hm
  obtain ⟨hsent, hleft⟩ := @after_add_of_lt jitter n m (by omega)
  obtain ⟨hsent', hleft'⟩ := @step_of_eq jitter (after jitter (n + m)) (by omega)
  rw [hm, ← hsent]
  exact ⟨hsent', hleft'⟩

/-- The keepalives add up. -/
theorem sent_mono : Monotone fun n => (after jitter n).sent := by
  refine monotone_nat_of_le_succ fun n => ?_
  show (after jitter n).sent ≤ ((after jitter n).step jitter).sent
  unfold step
  split
  · exact Nat.le_succ _
  · exact le_rfl

/-- Whatever the intervals are: 250 consecutive ticks have a keepalive at least, and 150 have one at
most. -/
theorem keepalive_window (jitter : ℕ → ℕ) (n : ℕ) :
    (after jitter n).sent + 1 ≤ (after jitter (n + 250)).sent ∧
      (after jitter (n + 150)).sent ≤ (after jitter n).sent + 1 := by
  obtain ⟨hpos, hmax⟩ := @armed jitter n
  obtain ⟨hsent, hnext⟩ := @after_add_remaining jitter n
  set left := (after jitter n).ctrl.ticksRemaining
  constructor
  · rw [← hsent]
    exact sent_mono (by omega)
  · rcases Nat.lt_or_ge 150 left with hlate | hsoon
    · -- The countdown lasts longer than the window.
      rw [(after_add_of_lt hlate).1]
      exact Nat.le_succ _
    · -- The rest of the window, after the keepalive, is shorter than the next countdown.
      have hrest := @after_add_of_lt jitter (n + left) (150 - left) (by omega)
      rw [Nat.add_assoc, Nat.add_sub_cancel' hsoon] at hrest
      rw [hrest.1, hsent]

end KeepaliveLoop

end LowBand.Lbtp
