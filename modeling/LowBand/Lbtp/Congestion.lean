import LowBand.Lbtp.Fec
import LowBand.Lbtp.Pacer

/-!
# The loss backstop

`LossBackstop` of `congestion.rs` lowers the send rate when a warm estimator sees more than a tenth
of the packets lost, and then pauses for `BACKSTOP_COOLDOWN_TICKS` checks. The arithmetic is exact
on rational numbers.

The floor is applied after the cut, so what a firing check returns is a reduction exactly when the
rate was at the floor or above (`newRate_le_iff`). The pacer's rate is also set by other
controllers, and `reduces_iff_guarded` says in which runs every returned rate is a reduction. The
floor and the distance of two firings hold in all of them (`floor_le_emitted`, `emitted_apart`).
-/

namespace LowBand.Lbtp

open Lib

/-- `LOSS_BACKSTOP_THRESHOLD`. -/
def lossBackstopThreshold : ℚ := 10 / 100

/-- `LOSS_BACKSTOP_REDUCTION`. -/
def lossBackstopReduction : ℚ := 85 / 100

/-- `BACKSTOP_MIN_RATE_BPS`. -/
def backstopMinRateBps : ℚ := 48000

/-- `BACKSTOP_COOLDOWN_TICKS`. -/
def backstopCooldownTicks : ℕ := 50

/-- `LossBackstop`. -/
structure LossBackstop where
  /-- The checks until it may fire again. -/
  cooldownRemaining : ℕ
deriving DecidableEq

namespace LossBackstop

/-- `LossBackstop::new`. -/
def new : LossBackstop := ⟨0⟩

/-- `check`: the new rate, if any, and the backstop after the check. -/
def check (b : LossBackstop) (currentRateBps : ℚ) (estimator : GilbertElliottEstimator) :
    Option ℚ × LossBackstop :=
  if b.cooldownRemaining > 0 then (none, ⟨b.cooldownRemaining - 1⟩)
  else if estimator.nObs < minObsForEstimate then (none, b)
  else if estimator.lossRate ≤ lossBackstopThreshold then (none, b)
  else
    let newRate := max (currentRateBps * lossBackstopReduction) backstopMinRateBps
    (some newRate, ⟨backstopCooldownTicks⟩)

/-- The three conditions under which a check returns a rate. -/
def Fires (b : LossBackstop) (estimator : GilbertElliottEstimator) : Prop :=
  b.cooldownRemaining = 0 ∧ minObsForEstimate ≤ estimator.nObs ∧
    lossBackstopThreshold < estimator.lossRate

/-- Whether the backstop fires can be decided. -/
instance (b : LossBackstop) (estimator : GilbertElliottEstimator) :
    Decidable (b.Fires estimator) :=
  inferInstanceAs (Decidable (_ ∧ _ ∧ _))

variable {b : LossBackstop} {estimator : GilbertElliottEstimator}

/-- A check that fires. -/
theorem check_of_fires (h : b.Fires estimator) (rate : ℚ) :
    b.check rate estimator =
      (some (max (rate * lossBackstopReduction) backstopMinRateBps), ⟨backstopCooldownTicks⟩) := by
  obtain ⟨hcooldown, hwarm, hloss⟩ := h
  unfold check
  rw [if_neg (by omega), if_neg (by omega), if_neg (not_le.mpr hloss)]

/-- A check that does not fire counts the cooldown down. -/
theorem check_of_not_fires (h : ¬ b.Fires estimator) (rate : ℚ) :
    b.check rate estimator = (none, ⟨b.cooldownRemaining - 1⟩) := by
  have hidle : b.cooldownRemaining = 0 → b = ⟨b.cooldownRemaining - 1⟩ := by
    cases b
    rintro rfl
    rfl
  unfold check
  split_ifs with hcooldown hcold hloss
  · rfl
  · rw [← hidle (by omega)]
  · rw [← hidle (by omega)]
  · exact absurd ⟨by omega, by omega, not_le.mp hloss⟩ h

/-- What a firing check returns is at most the current rate exactly when the current rate is at
least the floor. -/
theorem newRate_le_iff (rate : ℚ) :
    max (rate * lossBackstopReduction) backstopMinRateBps ≤ rate ↔ backstopMinRateBps ≤ rate := by
  rw [max_le_iff, and_iff_right_iff_imp]
  unfold lossBackstopReduction backstopMinRateBps
  intro h
  linarith

end LossBackstop

/-! ## The control loop -/

/-- The backstop with the estimator that it reads and the pacer that it controls. -/
structure BackstopLoop where
  /-- The backstop. -/
  backstop : LossBackstop
  /-- The stream's loss estimator. -/
  estimator : GilbertElliottEstimator
  /-- The pacer. -/
  pacer : Pacer
  /-- The checks made. -/
  checks : ℕ

/-- What happens to the loop. -/
inductive LoopEvent where
  /-- A packet was received or lost. -/
  | observe (received : Bool)
  /-- Another controller sets the rate. -/
  | setRate (rateBps : ℚ)
  /-- A control tick. -/
  | tick

/-- A rate that a check returned. -/
structure Reduction where
  /-- The checks made before this one. -/
  check : ℕ
  /-- The rate passed to the check. -/
  currentRateBps : ℚ
  /-- The rate that it returned. -/
  newRateBps : ℚ
deriving DecidableEq

namespace BackstopLoop

/-- A new backstop beside an estimator and a pacer. -/
def start (pacer : Pacer) (estimator : GilbertElliottEstimator) : BackstopLoop :=
  ⟨.new, estimator, pacer, 0⟩

/-- An event of the loop. A tick checks once with the pacer's rate and applies what it returns. -/
def step : Machine BackstopLoop LoopEvent Reduction
  | s, .observe received => ([], { s with estimator := s.estimator.observe received })
  | s, .setRate rateBps => ([], { s with pacer := s.pacer.setRate rateBps })
  | s, .tick =>
    let (newRate, backstop) := s.backstop.check s.pacer.rateBps s.estimator
    let s' := { s with backstop := backstop, checks := s.checks + 1 }
    match newRate with
    | none => ([], s')
    | some rate =>
      ([⟨s.checks, s.pacer.rateBps, rate⟩], { s' with pacer := s.pacer.setRate rate })

/-- A tick at which the backstop fires comes at a rate of at least the floor. -/
def FiresAboveFloor : BackstopLoop → LoopEvent → Prop
  | s, .tick => s.backstop.Fires s.estimator → backstopMinRateBps ≤ s.pacer.rateBps
  | _, _ => True

variable {s : BackstopLoop}

/-- A tick at which the backstop fires. -/
theorem step_tick_of_fires (h : s.backstop.Fires s.estimator) :
    let rate := max (s.pacer.rateBps * lossBackstopReduction) backstopMinRateBps
    step s .tick = ([⟨s.checks, s.pacer.rateBps, rate⟩],
      ⟨⟨backstopCooldownTicks⟩, s.estimator, s.pacer.setRate rate, s.checks + 1⟩) := by
  simp only [step, LossBackstop.check_of_fires h]

/-- A tick at which it does not. -/
theorem step_tick_of_not_fires (h : ¬ s.backstop.Fires s.estimator) :
    step s .tick =
      ([], ⟨⟨s.backstop.cooldownRemaining - 1⟩, s.estimator, s.pacer, s.checks + 1⟩) := by
  simp only [step, LossBackstop.check_of_not_fires h]

/-- The outputs of an event have a property when the rate returned by a firing tick has it. -/
theorem forall_step_iff (P : Reduction → Prop) (s : BackstopLoop) (e : LoopEvent) :
    (∀ o ∈ (step s e).1, P o) ↔ (e = .tick → s.backstop.Fires s.estimator →
      P ⟨s.checks, s.pacer.rateBps,
        max (s.pacer.rateBps * lossBackstopReduction) backstopMinRateBps⟩) := by
  cases e with
  | observe received => simp [step]
  | setRate rateBps => simp [step]
  | tick =>
    by_cases h : s.backstop.Fires s.estimator
    · simp [step_tick_of_fires h, h]
    · simp [step_tick_of_not_fires h, h]

/-- No check returns a rate below the floor. -/
theorem floor_le_emitted (s : BackstopLoop) (es : List LoopEvent) :
    ∀ o ∈ step.emitted s es, backstopMinRateBps ≤ o.newRateBps := by
  refine Machine.forall_mem_emitted (fun _ => True) ?_ trivial
  intro s e _
  refine ⟨trivial, (forall_step_iff _ s e).mpr ?_⟩
  intro _ _
  exact le_max_right _ _

/-- All returned rates are reductions exactly when all firing ticks come at the floor or above. -/
theorem emitted_le_iff (s : BackstopLoop) (es : List LoopEvent) :
    (∀ o ∈ step.emitted s es, o.newRateBps ≤ o.currentRateBps) ↔
      Guarded (fun s e => (step s e).2) FiresAboveFloor s es := by
  apply Machine.forall_mem_emitted_iff_guarded
  intro s e
  rw [forall_step_iff]
  cases e with
  | observe received => simp [FiresAboveFloor]
  | setRate rateBps => simp [FiresAboveFloor]
  | tick => simp only [FiresAboveFloor, LossBackstop.newRate_le_iff, true_imp_iff]

/-- The number of the first check that may return a rate. -/
def earliest (s : BackstopLoop) : ℕ := s.checks + s.backstop.cooldownRemaining

/-- An event does not make that number smaller. -/
theorem earliest_le_step (s : BackstopLoop) (e : LoopEvent) :
    s.earliest ≤ (step s e).2.earliest := by
  cases e with
  | observe received => exact le_rfl
  | setRate rateBps => exact le_rfl
  | tick =>
    unfold earliest
    by_cases h : s.backstop.Fires s.estimator
    · rw [step_tick_of_fires h, h.1]
      show s.checks + 0 ≤ s.checks + 1 + backstopCooldownTicks
      omega
    · rw [step_tick_of_not_fires h]
      show _ ≤ s.checks + 1 + (s.backstop.cooldownRemaining - 1)
      omega

/-- What an event outputs. -/
theorem step_outputs (s : BackstopLoop) (e : LoopEvent) :
    (step s e).1 = [] ∨ ∃ o, (step s e).1 = [o] ∧ s.earliest ≤ o.check ∧
      o.check + backstopCooldownTicks < (step s e).2.earliest := by
  cases e with
  | observe received => exact .inl rfl
  | setRate rateBps => exact .inl rfl
  | tick =>
    by_cases h : s.backstop.Fires s.estimator
    · rw [step_tick_of_fires h]
      refine .inr ⟨_, rfl, ?_, ?_⟩
      · show s.checks + s.backstop.cooldownRemaining ≤ s.checks
        rw [h.1, add_zero]
      · show s.checks + backstopCooldownTicks < s.checks + 1 + backstopCooldownTicks
        omega
    · rw [step_tick_of_not_fires h]
      exact .inl rfl

/-- Nothing is returned before that check. -/
theorem earliest_le_emitted (s : BackstopLoop) (es : List LoopEvent) :
    ∀ o ∈ step.emitted s es, s.earliest ≤ o.check := by
  induction es generalizing s with
  | nil => exact List.forall_mem_nil _
  | cons e es ih =>
    have hlater : ∀ o ∈ step.emitted (step s e).2 es, s.earliest ≤ o.check := by
      intro o ho
      exact (earliest_le_step s e).trans (ih _ o ho)
    refine List.forall_mem_append.mpr ⟨?_, hlater⟩
    rcases step_outputs s e with h | ⟨o, h, ho, -⟩
    · rw [h]
      exact List.forall_mem_nil _
    · rw [h]
      exact List.forall_mem_singleton.mpr ho

/-- Two returned rates are more than the cooldown apart. -/
theorem emitted_apart (s : BackstopLoop) (es : List LoopEvent) :
    (step.emitted s es).Pairwise fun o o' => o.check + backstopCooldownTicks < o'.check := by
  induction es generalizing s with
  | nil => exact List.Pairwise.nil
  | cons e es ih =>
    show ((step s e).1 ++ step.emitted (step s e).2 es).Pairwise _
    rcases step_outputs s e with h | ⟨o, h, -, ho⟩
    · rw [h]
      exact ih _
    · rw [h]
      refine List.pairwise_cons.mpr ⟨?_, ih _⟩
      intro o' ho'
      exact ho.trans_le (earliest_le_emitted _ es o' ho')

/-- What the backstop promises of the rates that it returns: they are reductions, no reduction goes
below the floor, and two of them are more than the cooldown apart. -/
structure Reduces (returned : List Reduction) : Prop where
  /-- No rate is raised. -/
  le : ∀ o ∈ returned, o.newRateBps ≤ o.currentRateBps
  /-- A rate at the floor or above stays there. -/
  floor : ∀ o ∈ returned, backstopMinRateBps ≤ o.currentRateBps →
    backstopMinRateBps ≤ o.newRateBps
  /-- Two rates are more than the cooldown apart. -/
  apart : returned.Pairwise fun o o' => o.check + backstopCooldownTicks < o'.check

/-- The backstop only reduces in a run exactly when it fires at no rate below the floor. -/
theorem reduces_iff_guarded (pacer : Pacer) (estimator : GilbertElliottEstimator)
    (es : List LoopEvent) :
    Reduces (step.emitted (start pacer estimator) es) ↔
      Guarded (fun s e => (step s e).2) FiresAboveFloor (start pacer estimator) es := by
  rw [← emitted_le_iff]
  constructor
  · exact Reduces.le
  · intro hle
    refine ⟨hle, ?_, emitted_apart _ es⟩
    intro o ho _
    exact floor_le_emitted _ es o ho

/-- Thirty lost packets and a congestion controller that has set ten kilobits: the backstop raises
the rate to its floor. -/
theorem raises_low_rate :
    ∃ es : List LoopEvent, (∀ rate, .setRate rate ∈ es → 0 < rate) ∧
      ¬ Reduces (step.emitted (start (.new 500000) .new) es) := by
  refine ⟨List.replicate 30 (.observe false) ++ [.setRate 10000, .tick], ?_, ?_⟩
  · intro rate hrate
    have h : rate = 10000 := by simpa using hrate
    rw [h]
    norm_num
  · intro h
    have hout : step.emitted (start (.new 500000) .new)
        (List.replicate 30 (.observe false) ++ [.setRate 10000, .tick]) = [⟨0, 10000, 48000⟩] := by
      decide +kernel
    have hle := h.le ⟨0, 10000, 48000⟩ (by rw [hout]; exact List.mem_singleton_self _)
    exact absurd hle (by norm_num)

end BackstopLoop

end LowBand.Lbtp
