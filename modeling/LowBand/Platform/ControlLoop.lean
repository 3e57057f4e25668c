import LowBand.Lib.Run
import LowBand.Lib.Streak
import LowBand.Platform.GearPolicy
import LowBand.Platform.Tier

/-!
# The governor's control loop

`ControlLoop` (`core/platform/src/control_loop.rs`) ticks the tier emitter with the bandwidth
estimate and allocates the budgets of the streams from the same estimate and the thermal level.

The tier depends on the estimates alone and is monotone in them (`tiers_mono`): a loop that is ahead
of another stays ahead (`tick_ahead`). The hold counter is the streak of ticks that ran at the
current tier with headroom (`holdTicks_eq_streak`), from which the transition law over the whole
history follows (`tick_law`).

The allocator sees neither the tier nor, beyond the streams it permits, the thermal level. So the
promise that file transfer has no budget at the bottom tier or in a thermal emergency is kept only
when the streams before it take the whole estimate (`xferFrozen_iff`).
-/

namespace LowBand.Platform

open Lib

/-- What the governor observes in one tick. -/
structure ControlLoopInput where
  bweBps : ℕ
  rttMs : ℕ
  lossPpm : ℕ
  thermal : ThermalPressure
  deriving DecidableEq, Repr

/-- The snapshot that goes to the peer. -/
structure GovernorSummary where
  tier : TierState
  bweBps : ℕ
  rttMs : ℕ
  lossPpm : ℕ
  deriving DecidableEq, Repr

/-- What one tick gives. -/
structure ControlLoopOutput where
  tier : TierState
  budgets : StreamBudgets
  summary : GovernorSummary
  deriving DecidableEq, Repr

/-- The control loop: the emitter and the tier it emitted last. -/
structure ControlLoop where
  emitter : GovernorTierEmitter
  currentTier : TierState
  deriving DecidableEq, Repr

namespace ControlLoop

/-- A loop at the bottom tier with no hold. -/
def new : ControlLoop := ⟨.new, .survival⟩

/-- One tick: the tier, the constraints of the thermal level, the budgets, and the summary. -/
def tick (c : ControlLoop) (input : ControlLoopInput) : ControlLoopOutput × ControlLoop :=
  let (tier, emitter) := c.emitter.tick c.currentTier input.bweBps
  let constraints := GearConstraints.fromThermal input.thermal
  let budgets := allocate input.bweBps constraints
  let summary : GovernorSummary :=
    { tier, bweBps := input.bweBps, rttMs := input.rttMs, lossPpm := input.lossPpm }
  ({ tier, budgets, summary }, { emitter, currentTier := tier })

/-- The loop after a tick. -/
def next (c : ControlLoop) (input : ControlLoopInput) : ControlLoop := (c.tick input).2

/-- A new loop after the ticks of `inputs`. -/
def after (inputs : List ControlLoopInput) : ControlLoop := run next new inputs

/-- What the ticks of `inputs` give, in order. -/
def outputs : ControlLoop → List ControlLoopInput → List ControlLoopOutput
  | _, [] => []
  | c, input :: inputs => (c.tick input).1 :: outputs (c.next input) inputs

/-- The tier that a tick emits is the current tier from then on. -/
theorem tick_tier (c : ControlLoop) (input : ControlLoopInput) :
    (c.tick input).1.tier = (c.next input).currentTier := rfl

/-- The loop keeps what its emitter gives. -/
theorem next_eq {c : ControlLoop} {input : ControlLoopInput} {tier : TierState}
    {emitter : GovernorTierEmitter}
    (h : c.emitter.tick c.currentTier input.bweBps = (tier, emitter)) :
    c.next input = ⟨emitter, tier⟩ := by
  unfold next tick
  rw [h]

/-- The loop after one more input. -/
theorem after_concat (inputs : List ControlLoopInput) (input : ControlLoopInput) :
    after (inputs ++ [input]) = (after inputs).next input := by
  unfold after
  rw [run_append]
  rfl

/-! ## The tier is monotone in the bandwidth -/

/-- The first loop is ahead of the second. -/
def Ahead (a b : ControlLoop) : Prop :=
  GovernorTierEmitter.Ahead (a.currentTier, a.emitter) (b.currentTier, b.emitter)

/-- A loop that is ahead stays ahead when it sees at least the same bandwidth. -/
theorem tick_ahead {a b : ControlLoop} {i j : ControlLoopInput} (h : Ahead a b)
    (hbwe : j.bweBps ≤ i.bweBps) : Ahead (a.next i) (b.next j) :=
  GovernorTierEmitter.tick_mono h hbwe

/-- Two runs of which the first starts ahead and always sees at least the same bandwidth. -/
theorem tiers_mono_of_ahead {a b : ControlLoop} {high low : List ControlLoopInput} (h : Ahead a b)
    (hbwe : List.Forall₂ (fun i j => j.bweBps ≤ i.bweBps) high low) :
    List.Forall₂ (fun o p => p.tier ≤ o.tier) (outputs a high) (outputs b low) := by
  induction hbwe generalizing a b with
  | nil => exact List.Forall₂.nil
  | cons hij _ ih =>
    have hnext := tick_ahead h hij
    exact List.Forall₂.cons hnext.tier_le (ih hnext)

/-- Of two new loops, the one whose bandwidth estimate is at every tick at least the other's emits
at every tick at least the other's tier. -/
theorem tiers_mono {high low : List ControlLoopInput}
    (h : List.Forall₂ (fun i j => j.bweBps ≤ i.bweBps) high low) :
    List.Forall₂ (fun o p => p.tier ≤ o.tier) (outputs new high) (outputs new low) :=
  tiers_mono_of_ahead (Or.inr ⟨rfl, le_rfl⟩) h

/-- Fifty ticks at the floor of `Constrained` against fifty ticks just below it. -/
theorem tiers_mono_fifty_ticks :
    List.Forall₂ (fun o p => p.tier ≤ o.tier)
      (outputs new (List.replicate 50 ⟨64000, 30, 0, .nominal⟩))
      (outputs new (List.replicate 50 ⟨63999, 30, 0, .nominal⟩)) :=
  tiers_mono (by decide)

/-! ## The transition law -/

/-- A tick that has run: the tier it ran at and what it observed. -/
structure Tick where
  tier : TierState
  input : ControlLoopInput
  deriving DecidableEq, Repr

/-- The ticks of a run. -/
def ticks : ControlLoop → List ControlLoopInput → List Tick
  | _, [] => []
  | c, input :: inputs => ⟨c.currentTier, input⟩ :: ticks (c.next input) inputs

/-- The ticks of two runs follow each other. -/
theorem ticks_append (c : ControlLoop) (inputs : List ControlLoopInput)
    (rest : List ControlLoopInput) :
    ticks c (inputs ++ rest) = ticks c inputs ++ ticks (run next c inputs) rest := by
  induction inputs generalizing c with
  | nil => rfl
  | cons input inputs ih =>
    rw [List.cons_append, ticks, ticks, ih, List.cons_append]
    rfl

/-- The tick ran at the given tier and had headroom over it. -/
def Tick.heldAt (tier : TierState) (t : Tick) : Bool :=
  decide (t.tier = tier ∧ Headroom tier t.input.bweBps)

/-- The last tick of a run. -/
theorem ticks_concat (inputs : List ControlLoopInput) (input : ControlLoopInput) :
    ticks new (inputs ++ [input]) = ticks new inputs ++ [⟨(after inputs).currentTier, input⟩] :=
  ticks_append new inputs [input]

/-- A tick that left its tier is not held at the tier it went to. -/
theorem heldAt_of_ne {tier tier' : TierState} (input : ControlLoopInput) (h : tier ≠ tier') :
    Tick.heldAt tier' ⟨tier, input⟩ = false :=
  decide_eq_false fun hheld => h hheld.1

/-- A tick in its own tier is held when there is headroom. -/
theorem heldAt_self (tier : TierState) (input : ControlLoopInput) :
    Tick.heldAt tier ⟨tier, input⟩ = decide (Headroom tier input.bweBps) := by
  unfold Tick.heldAt
  simp only [true_and]

/-- The hold counter is the streak of ticks that ran at the current tier with headroom. A change of
tier ends the streak, since no tick has run at the new tier yet. -/
theorem holdTicks_eq_streak (inputs : List ControlLoopInput) :
    (after inputs).emitter.upgradeGuard.holdTicks
      = streak (Tick.heldAt (after inputs).currentTier) (ticks new inputs) := by
  -- By induction on the inputs: the guard counts the ticks held with headroom.
  induction inputs using List.reverseRecOn with
  | nil => rfl
  | append_singleton inputs input ih =>
    rw [ticks_concat, streak_concat, after_concat]
    generalize after inputs = c at ih ⊢
    obtain ⟨hbelow, ht⟩ | ⟨up, hup, -, -, ht⟩ | ⟨hroom, -, ht⟩ | ⟨-, hroom, ht⟩ :=
      c.emitter.tick_cases c.currentTier input.bweBps
    · have hne : c.currentTier ≠ tierStepDown c.currentTier := by
        intro heq
        have hrank := rank_tierStepDown hbelow
        rw [← heq] at hrank
        omega
      rw [next_eq ht, heldAt_of_ne input hne]
      rfl
    · have hne : c.currentTier ≠ up := by
        intro heq
        have hrank := rank_of_tierStepUp hup
        rw [← heq] at hrank
        omega
      rw [next_eq ht, heldAt_of_ne input hne]
      rfl
    · rw [next_eq ht, heldAt_self, decide_eq_true hroom, if_pos rfl, ← ih]
    · rw [next_eq ht, heldAt_self, decide_eq_false hroom]
      rfl

/-- The last fifty ticks all ran at the tier and all had an estimate at or above the floor of the
next tier. -/
def HeldFifty (tier : TierState) (ts : List Tick) : Prop :=
  ∃ earlier last, ts = earlier ++ last ∧ last.length = 50 ∧
    ∀ t ∈ last, t.tier = tier ∧ Headroom tier t.input.bweBps

/-- The last fifty ticks of a run were held when the last one has headroom and completes the
hold. -/
theorem heldFifty_iff (inputs : List ControlLoopInput) (input : ControlLoopInput) :
    HeldFifty (after inputs).currentTier (ticks new (inputs ++ [input])) ↔
      Headroom (after inputs).currentTier input.bweBps ∧
        upgradeHoldTicks ≤ (after inputs).emitter.upgradeGuard.holdTicks + 1 := by
  have hstreak : HeldFifty (after inputs).currentTier (ticks new (inputs ++ [input])) ↔
      50 ≤ streak (Tick.heldAt (after inputs).currentTier) (ticks new (inputs ++ [input])) := by
    rw [le_streak_iff]
    simp only [HeldFifty, Tick.heldAt, decide_eq_true_eq]
  rw [hstreak, ticks_concat, streak_concat, heldAt_self, holdTicks_eq_streak]
  by_cases hroom : Headroom (after inputs).currentTier input.bweBps
  · simp [hroom, upgradeHoldTicks]
  · simp [hroom]

/-- The transition law. After any ticks, the next tick takes the tier down one step if and only if
the estimate is below four fifths of the tier's floor, takes it up one step if and only if the last
fifty ticks all ran at the tier with an estimate at or above the floor of the next one, and
otherwise leaves it as it is. -/
theorem tick_law (inputs : List ControlLoopInput) (input : ControlLoopInput) :
    (((after inputs).tick input).1.tier.rank + 1 = (after inputs).currentTier.rank ↔
      Below (after inputs).currentTier input.bweBps) ∧
    (((after inputs).tick input).1.tier.rank = (after inputs).currentTier.rank + 1 ↔
      HeldFifty (after inputs).currentTier (ticks new (inputs ++ [input]))) ∧
    (¬ Below (after inputs).currentTier input.bweBps →
      ¬ HeldFifty (after inputs).currentTier (ticks new (inputs ++ [input])) →
      ((after inputs).tick input).1.tier = (after inputs).currentTier) := by
  rw [heldFifty_iff, tick_tier]
  generalize after inputs = c
  obtain ⟨hbelow, ht⟩ | ⟨up, hup, hroom, hhold, ht⟩ | ⟨hroom, hhold, ht⟩ | ⟨hbelow, hroom, ht⟩ :=
    c.emitter.tick_cases c.currentTier input.bweBps
  · have hrank := rank_tierStepDown hbelow
    have hroom : ¬ Headroom c.currentTier input.bweBps :=
      not_headroom_of_below hbelow (Nat.le_succ _)
    rw [next_eq ht]
    -- Below the floor there is no headroom, so this is a step down and no other.
    refine ⟨iff_of_true hrank hbelow, iff_of_false ?_ fun h => hroom h.1, fun h => absurd hbelow h⟩
    simp only
    omega
  · have hrank := rank_of_tierStepUp hup
    have hbelow : ¬ Below c.currentTier input.bweBps :=
      fun h => not_headroom_of_below h (Nat.le_succ _) hroom
    rw [next_eq ht]
    refine ⟨iff_of_false ?_ hbelow, iff_of_true hrank ⟨hroom, hhold⟩,
      fun _ h => absurd ⟨hroom, hhold⟩ h⟩
    simp only
    omega
  · have hbelow : ¬ Below c.currentTier input.bweBps :=
      fun h => not_headroom_of_below h (Nat.le_succ _) hroom
    rw [next_eq ht]
    exact ⟨iff_of_false (Nat.succ_ne_self _) hbelow,
      iff_of_false (Nat.succ_ne_self _).symm fun h => absurd h.2 (Nat.not_le_of_lt hhold),
      fun _ _ => rfl⟩
  · rw [next_eq ht]
    exact ⟨iff_of_false (Nat.succ_ne_self _) hbelow,
      iff_of_false (Nat.succ_ne_self _).symm fun h => hroom h.1, fun _ _ => rfl⟩

/-! ## The budget of file transfer -/

/-- In a tick that emits the bottom tier or runs in a thermal emergency, file transfer has no
budget. -/
def Frozen (c : ControlLoop) (input : ControlLoopInput) : Prop :=
  (c.tick input).1.tier = .survival ∨ input.thermal = .critical →
    (c.tick input).1.budgets.xferBps = 0

/-- File transfer is frozen in every tick of a run in which it should be. -/
def XferFrozen (inputs : List ControlLoopInput) : Prop :=
  ∀ pre input post, inputs = pre ++ input :: post → Frozen (after pre) input

/-- The condition on a tick: the streams before file transfer take the whole estimate, or the
thermal level is below critical and the loop is above the bottom tier or leaves it with this
tick. -/
def XferSafe (c : ControlLoop) (input : ControlLoopInput) : Prop :=
  input.bweBps ≤ fundedBps input.thermal ∨
    input.thermal ≠ .critical ∧
      (c.currentTier ≠ .survival ∨ upgradeHoldTicks ≤ c.emitter.upgradeGuard.holdTicks + 1)

/-- Whether an input is safe for transfers can be decided. -/
instance (c : ControlLoop) (input : ControlLoopInput) : Decidable (XferSafe c input) :=
  inferInstanceAs (Decidable (_ ∨ _ ∧ (_ ∨ _)))

/-- With an estimate that sustains `Constrained`, a tick emits the bottom tier when the loop is
there and the tick does not complete the hold. -/
theorem tick_eq_survival_iff (c : ControlLoop) {input : ControlLoopInput}
    (hbwe : constrainedFloorBps ≤ input.bweBps) :
    (c.tick input).1.tier = .survival ↔
      c.currentTier = .survival ∧
        ¬ upgradeHoldTicks ≤ c.emitter.upgradeGuard.holdTicks + 1 := by
  -- At the bottom the estimate leaves headroom.
  have hbottom : c.currentTier = .survival → Headroom c.currentTier input.bweBps := by
    intro h
    rw [h]
    exact ⟨_, rfl, _, rfl, hbwe⟩
  rw [tick_tier]
  obtain ⟨hbelow, ht⟩ | ⟨up, hup, hroom, hhold, ht⟩ | ⟨hroom, hhold, ht⟩ | ⟨hbelow, hroom, ht⟩ :=
    c.emitter.tick_cases c.currentTier input.bweBps <;> rw [next_eq ht]
  · -- Only `Constrained` is one step above the bottom, and the estimate sustains it.
    have htier : tierStepDown c.currentTier ≠ .survival := by
      obtain ⟨floor, hfloor, hlt⟩ := hbelow
      cases hc : c.currentTier with
      | survival => simp [hc, tierFloorBps] at hfloor
      | constrained =>
        rw [hc] at hfloor
        obtain rfl : constrainedFloorBps = floor := Option.some.inj hfloor
        omega
      | comfortable => exact TierState.noConfusion
      | full => exact TierState.noConfusion
    refine iff_of_false htier fun h => ?_
    exact not_headroom_of_below hbelow (Nat.le_succ _) (hbottom h.1)
  · refine iff_of_false ?_ fun h => h.2 hhold
    rintro rfl
    exact Nat.succ_ne_zero _ (rank_of_tierStepUp hup).symm
  · exact (and_iff_left (Nat.not_le_of_lt hhold)).symm
  · refine iff_of_false (fun h => hroom (hbottom h)) fun h => hroom (hbottom h.1)

/-- A tick freezes file transfer when it should if and only if it meets the condition. -/
theorem frozen_iff (c : ControlLoop) (input : ControlLoopInput) :
    Frozen c input ↔ XferSafe c input := by
  have hxfer : (c.tick input).1.budgets.xferBps = 0 ↔ input.bweBps ≤ fundedBps input.thermal := by
    rw [← Nat.sub_eq_zero_iff_le, ← allocate_xferBps]
    rfl
  unfold Frozen XferSafe
  rw [hxfer]
  by_cases hfunded : input.bweBps ≤ fundedBps input.thermal
  · exact iff_of_true (fun _ => hfunded) (Or.inl hfunded)
  · by_cases hcritical : input.thermal = .critical
    · simp [hcritical]
    · have hbwe : constrainedFloorBps ≤ input.bweBps := by
        unfold fundedBps constrainedFloorBps at *
        revert hfunded hcritical
        cases input.thermal <;> simp <;> omega
      simp only [hfunded, hcritical, or_false, imp_false, false_or, ne_eq, not_false_eq_true,
        true_and, tick_eq_survival_iff c hbwe, not_and_or, not_not]

/-- File transfer is frozen in every tick of a run in which it should be if and only if every tick
of the run meets the condition. -/
theorem xferFrozen_iff (inputs : List ControlLoopInput) :
    XferFrozen inputs ↔ Guarded next XferSafe new inputs := by
  rw [guarded_iff_forall_append]
  unfold XferFrozen
  simp only [frozen_iff]
  rfl

/-- The first tick on a link of 1 Mbps emits the bottom tier and gives file transfer what the other
streams leave. -/
theorem not_xferFrozen : ¬ XferFrozen [⟨1000000, 30, 0, .nominal⟩] := by
  intro h
  have hxfer := h [] ⟨1000000, 30, 0, .nominal⟩ [] rfl (Or.inl (by decide))
  exact absurd hxfer (by decide)

end ControlLoop

end LowBand.Platform
