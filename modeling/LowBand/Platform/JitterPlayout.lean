import LowBand.Lib.Backlog
import LowBand.Platform.JitterBuffer
import Mathlib.Tactic.NormNum
import Mathlib.Tactic.Positivity

/-!
# The jitter buffer's playout

`JitterBuffer::enqueue` and `tick` of `jitter_buffer.rs`: frames come in as the network delivers
them, one is played every 20 ms, and a tick with no frame is concealed. The factors of the time
scaling are exact rational numbers.

The frames of the buffer are a backlog (`level_concealed`), so how often a tick is concealed depends
on the arrivals and the ticks alone (`playout_conceals`), whatever target the delays lead to. The
target decides how fast a frame is played, and the rate never leaves 15 percent (`rate_tick`).
-/

namespace LowBand.Platform

open Lib BacklogOp
open scoped List

/-- `MAX_TIME_SCALE_RATE`. -/
def maxTimeScaleRate : ℚ := 15 / 100

/-- `PlayoutAction`. -/
inductive PlayoutAction where
  | normal
  | accelerate (factor : ℚ)
  | decelerate (factor : ℚ)
  | conceal
  deriving DecidableEq

namespace PlayoutAction

/-- The tick had no frame. -/
def isConceal : PlayoutAction → Bool
  | conceal => true
  | _ => false

/-- The effective playback rate. -/
def rate : PlayoutAction → ℚ
  | normal | conceal => 1
  | accelerate factor => 1 + factor
  | decelerate factor => 1 - factor

end PlayoutAction

namespace JitterBuffer

/-- `enqueue`. -/
def enqueue (b : JitterBuffer) : JitterBuffer := { b with level := b.level + 1 }

/-- `tick`. -/
def tick (b : JitterBuffer) : PlayoutAction × JitterBuffer :=
  if b.level = 0 then (.conceal, b)
  else
    let level := b.level - 1
    let deviation : ℤ := level - b.targetLevel
    let absDev := deviation.natAbs
    let action :=
      if absDev ≤ b.convergenceZone then .normal
      else
        let denom : ℚ := max b.targetLevel 1
        let rawFactor := absDev / denom
        let factor := min rawFactor maxTimeScaleRate
        if 0 < deviation then .accelerate factor else .decelerate factor
    (action, { b with level })

/-! ## A tick -/

/-- A tick takes a frame, if there is one. -/
theorem tick_state (b : JitterBuffer) : b.tick.2 = { b with level := b.level - 1 } := by
  rw [tick]
  split_ifs with hempty
  · rw [hempty, Nat.zero_sub, ← hempty]
  · rfl

/-- A tick is concealed exactly when there is no frame. -/
theorem isConceal_tick (b : JitterBuffer) : b.tick.1.isConceal = true ↔ b.level = 0 := by
  rw [tick]
  split_ifs with hempty
  · exact iff_of_true rfl hempty
  · refine iff_of_false ?_ hempty
    dsimp only
    split_ifs <;> exact Bool.false_ne_true

/-- A frame is played faster exactly when more than the zone above the target are left behind it,
and slower exactly when the rest is more than the zone below; by no more than 15 percent. -/
theorem rate_tick (b : JitterBuffer) :
    (1 < b.tick.1.rate ↔ b.targetLevel + b.convergenceZone + 1 < b.level) ∧
      (b.tick.1.rate < 1 ↔ 0 < b.level ∧ b.level + b.convergenceZone ≤ b.targetLevel) ∧
      |b.tick.1.rate - 1| ≤ maxTimeScaleRate := by
  have hmax : 0 < maxTimeScaleRate := by
    norm_num [maxTimeScaleRate]
  rw [tick]
  by_cases hempty : b.level = 0
  · rw [if_pos hempty]
    refine ⟨iff_of_false (lt_irrefl _) (by omega), iff_of_false (lt_irrefl _) (by omega), ?_⟩
    show |(1 : ℚ) - 1| ≤ _
    rw [sub_self, abs_zero]
    exact hmax.le
  · rw [if_neg hempty]
    dsimp only
    obtain ⟨deviation, hdev⟩ : ∃ d : ℤ, d = (b.level - 1 : ℕ) - b.targetLevel := ⟨_, rfl⟩
    rw [← hdev]
    by_cases hzone : deviation.natAbs ≤ b.convergenceZone
    · rw [if_pos hzone]
      refine ⟨iff_of_false (lt_irrefl _) (by omega), iff_of_false (lt_irrefl _) (by omega), ?_⟩
      show |(1 : ℚ) - 1| ≤ _
      rw [sub_self, abs_zero]
      exact hmax.le
    · rw [if_neg hzone]
      -- Outside the zone the factor is positive, and the ceiling bounds it.
      have habs : 0 < deviation.natAbs := by omega
      have hdenom : (0 : ℚ) < max (b.targetLevel : ℚ) 1 :=
        lt_of_lt_of_le one_pos (le_max_right _ _)
      have hraw : (0 : ℚ) < deviation.natAbs / max (b.targetLevel : ℚ) 1 :=
        div_pos (Nat.cast_pos.mpr habs) hdenom
      obtain ⟨factor, hfactor⟩ : ∃ f, f =
        min (deviation.natAbs / max (b.targetLevel : ℚ) 1) maxTimeScaleRate := ⟨_, rfl⟩
      rw [← hfactor]
      have hpos : 0 < factor := hfactor ▸ lt_min hraw hmax
      have hle : factor ≤ maxTimeScaleRate := hfactor ▸ min_le_right _ _
      by_cases hfast : 0 < deviation
      · rw [if_pos hfast]
        refine ⟨iff_of_true ?_ (by omega), iff_of_false ?_ (by omega), ?_⟩
        · exact lt_add_of_pos_right 1 hpos
        · exact not_lt_of_gt (lt_add_of_pos_right 1 hpos)
        · show |1 + factor - 1| ≤ _
          rw [add_sub_cancel_left, abs_of_pos hpos]
          exact hle
      · rw [if_neg hfast]
        refine ⟨iff_of_false ?_ (by omega), iff_of_true ?_ (by omega), ?_⟩
        · exact not_lt_of_gt (sub_lt_self 1 hpos)
        · exact sub_lt_self 1 hpos
        · show |1 - factor - 1| ≤ _
          rw [sub_sub_cancel_left, abs_neg, abs_of_pos hpos]
          exact hle

/-! ## A run -/

/-- A call of the receive loop. -/
inductive PlayoutCall where
  | observeArrivalDelay (delayFrames : ℕ)
  | enqueue
  | tick
  deriving DecidableEq

namespace PlayoutCall

/-- The frames that came. -/
def enqueues (cs : List PlayoutCall) : ℕ := cs.count .enqueue

/-- The ticks. -/
def ticks (cs : List PlayoutCall) : ℕ := cs.count .tick

/-- The delays observed. -/
def delays (cs : List PlayoutCall) : List ℕ :=
  cs.filterMap fun
    | .observeArrivalDelay delayFrames => some delayFrames
    | _ => none

/-- What a call does to the backlog of frames. -/
def backlogOp : PlayoutCall → Option BacklogOp
  | .observeArrivalDelay _ => none
  | .enqueue => some .arrive
  | .tick => some .serve

/-- The arrivals of the backlog are the frames enqueued. -/
theorem arrivals_backlogOp (cs : List PlayoutCall) :
    arrivals (cs.filterMap backlogOp) = enqueues cs := by
  induction cs with
  | nil => rfl
  | cons c cs ih =>
    rw [enqueues, List.count_cons, ← enqueues, ← ih]
    cases c with
    | observeArrivalDelay delayFrames => rfl
    | enqueue | tick => simp [backlogOp]

/-- Its demands are the ticks. -/
theorem demands_backlogOp (cs : List PlayoutCall) :
    demands (cs.filterMap backlogOp) = ticks cs := by
  induction cs with
  | nil => rfl
  | cons c cs ih =>
    rw [ticks, List.count_cons, ← ticks, ← ih]
    cases c with
    | observeArrivalDelay delayFrames => rfl
    | enqueue | tick => simp [backlogOp]

end PlayoutCall

open PlayoutCall

/-- One call, with the action of a tick. -/
def playout : Machine JitterBuffer PlayoutCall PlayoutAction
  | b, .observeArrivalDelay delayFrames => ([], b.observeArrivalDelay delayFrames)
  | b, .enqueue => ([], b.enqueue)
  | b, .tick => ([b.tick.1], b.tick.2)

/-- The frames of the buffer are a backlog, and the concealed ticks are those that miss. -/
theorem level_concealed (b : JitterBuffer) (cs : List PlayoutCall) :
    (playout.finish b cs).level = run BacklogOp.step b.level (cs.filterMap backlogOp) ∧
      (playout.emitted b cs).countP (·.isConceal) = missed b.level (cs.filterMap backlogOp) := by
  -- By induction on the calls: those that only observe do not touch the level.
  induction cs generalizing b with
  | nil => exact ⟨rfl, rfl⟩
  | cons c cs ih =>
    obtain ⟨hlevel, hmissed⟩ := ih (playout b c).2
    change (playout.finish (playout b c).2 cs).level = _ ∧
      ((playout b c).1 ++ playout.emitted (playout b c).2 cs).countP _ = _
    rw [hlevel, List.countP_append, hmissed]
    cases c with
    | observeArrivalDelay delayFrames => exact ⟨rfl, Nat.zero_add _⟩
    | enqueue => exact ⟨rfl, Nat.zero_add _⟩
    -- A tick takes a frame, or conceals when there is none.
    | tick =>
      have hconceal := isConceal_tick b
      simp only [playout, tick_state, backlogOp, List.filterMap_cons, run_cons, BacklogOp.step,
        List.countP_singleton, hconceal, true_and]
      cases b.level with
      | zero => exact Nat.add_comm _ _
      | succ level => exact Nat.zero_add _

/-- The target follows the delays alone. -/
theorem targetLevel_finish (b : JitterBuffer) (cs : List PlayoutCall) :
    (playout.finish b cs).targetLevel = (b.observeAll (delays cs)).targetLevel := by
  suffices hsame : ∀ b' : JitterBuffer,
      b'.minTargetLevel = b.minTargetLevel → b'.targetLevel = b.targetLevel →
      b'.histogram = b.histogram →
      (playout.finish b' cs).targetLevel = (b.observeAll (delays cs)).targetLevel from
    hsame b rfl rfl rfl
  -- By induction on the calls: only arrivals move the target.
  induction cs generalizing b with
  | nil => exact fun b' _ htarget _ => htarget
  | cons c cs ih =>
    intro b' hmin htarget hhist
    change (playout.finish (playout b' c).2 cs).targetLevel = _
    cases c with
    | observeArrivalDelay delayFrames =>
      refine ih (b.observeArrivalDelay delayFrames) _ hmin ?_ ?_
      · simp only [playout, observeArrivalDelay, hmin, hhist]
      · simp only [playout, observeArrivalDelay, hhist]
    | enqueue => exact ih b _ hmin htarget hhist
    | tick =>
      refine ih b _ ?_ ?_ ?_ <;> simp only [playout, tick_state, hmin, htarget, hhist]

/-- No call changes the zone. -/
theorem convergenceZone_finish (b : JitterBuffer) (cs : List PlayoutCall) :
    (playout.finish b cs).convergenceZone = b.convergenceZone := by
  have hstep : ∀ (b' : JitterBuffer) (c : PlayoutCall), b'.convergenceZone = b.convergenceZone →
      (playout b' c).2.convergenceZone = b.convergenceZone := by
    intro b' c h
    rw [← h]
    cases c with
    | observeArrivalDelay delayFrames | enqueue => rfl
    | tick =>
      show b'.tick.2.convergenceZone = _
      rw [tick_state]
  exact run_induction hstep cs rfl

/-- After any calls, in any order: the concealed ticks are as few as can be, since at most `k` are
concealed exactly when at no point more than `k` ticks are ahead of the frames that came; each frame
was played once or is in the buffer; the target is that of the delays, and decides alone which way
the next frame is scaled; and no tick ever scales by more than 15 percent. -/
theorem playout_conceals (target zone : ℕ) (cs : List PlayoutCall) :
    let b := playout.finish (.new target zone) cs
    let actions := playout.emitted (.new target zone) cs
    let concealed := actions.countP (·.isConceal)
    (∀ k, concealed ≤ k ↔ ∀ pre, pre <+: cs → ticks pre ≤ enqueues pre + k) ∧
      b.level + ticks cs = enqueues cs + concealed ∧
      (1 < b.tick.1.rate ↔
        ((new target zone).observeAll (delays cs)).targetLevel + zone + 1 < b.level) ∧
      (b.tick.1.rate < 1 ↔ 0 < b.level ∧
        b.level + zone ≤ ((new target zone).observeAll (delays cs)).targetLevel) ∧
      ∀ action ∈ actions, |action.rate - 1| ≤ maxTimeScaleRate := by
  intro b actions concealed
  -- The buffer is a backlog, whose laws count what is missed.
  obtain ⟨hlevel, hmissed⟩ := level_concealed (new target zone) cs
  change b.level = run BacklogOp.step 0 _ at hlevel
  change concealed = missed 0 _ at hmissed
  have hbalance := level_run 0 (cs.filterMap backlogOp)
  rw [← hlevel, ← hmissed, arrivals_backlogOp, demands_backlogOp, Nat.zero_add] at hbalance
  have htarget : b.targetLevel = ((new target zone).observeAll (delays cs)).targetLevel :=
    targetLevel_finish (new target zone) cs
  have hzone : b.convergenceZone = zone := convergenceZone_finish (new target zone) cs
  obtain ⟨hfaster, hslower, -⟩ := rate_tick b
  rw [← htarget]
  refine ⟨fun k => ?_, hbalance, ?_, ?_, ?_⟩
  · rw [hmissed, missed_le_iff]
    constructor
    · intro h pre hpre
      have hbound := h _ (hpre.filterMap backlogOp)
      rwa [arrivals_backlogOp, demands_backlogOp, Nat.zero_add] at hbound
    · intro h pre hpre
      obtain ⟨pre, hcs, rfl⟩ := List.prefix_filterMap_iff.mp hpre
      rw [arrivals_backlogOp, demands_backlogOp, Nat.zero_add]
      exact h pre hcs
  · rw [hfaster, hzone]
  · rw [hslower, hzone]
  · refine Machine.forall_mem_emitted (fun _ => True) (fun b c _ => ⟨trivial, ?_⟩) trivial
    cases c with
    | observeArrivalDelay delayFrames | enqueue => exact List.forall_mem_nil _
    | tick => exact List.forall_mem_singleton.mpr (rate_tick b).2.2

end JitterBuffer

end LowBand.Platform
