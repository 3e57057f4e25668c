import LowBand.Lbtp.Cellular
import LowBand.Lib.Hysteresis

/-!
# Cellular mode

`CellularModeController` of `core/lbtp/src/cellular.rs`: what the rate control does with the
verdicts of the detector. The mode is entered after 20 ticks in a row with a bimodal verdict and
left after 50 in a row without; while it lasts, a rate decrease is allowed 30 ticks after the last
one.

The controller is a hysteresis over the verdicts at its ticks, with counters that saturate
(`Follows`). After any interleaving of delays, ticks and decreases, the mode and the permission
to decrease are what the history says (`cellular_history`).
-/

namespace LowBand.Lbtp

open Lib

/-- `CELLULAR_ENTRY_TICKS`. -/
def cellularEntryTicks : ℕ := 20

/-- `CELLULAR_EXIT_TICKS`. -/
def cellularExitTicks : ℕ := 50

/-- `CELLULAR_GAMMA_MULTIPLIER`. -/
def cellularGammaMultiplier : ℚ := 2

/-- `CELLULAR_MIN_DECREASE_TICKS`. -/
def cellularMinDecreaseTicks : ℕ := 30

/-- `u32::MAX`. -/
def u32Max : ℕ := 2 ^ 32 - 1

/-- `saturating_add(1)` on `u32`. -/
def saturatingSucc (n : ℕ) : ℕ := min (n + 1) u32Max

/-- `CellularModeController`. -/
structure CellularModeController where
  /-- The detector. -/
  detector : BimodalDetector
  /-- The mode is on. -/
  active : Bool
  /-- The ticks in a row with a bimodal verdict. -/
  entryCounter : ℕ
  /-- The ticks in a row without one. -/
  exitCounter : ℕ
  /-- The ticks since the last decrease. -/
  ticksSinceDecrease : ℕ

namespace CellularModeController

/-- `CellularModeController::new`. -/
def new : CellularModeController := ⟨.new, false, 0, 0, cellularMinDecreaseTicks⟩

/-- `CellularModeController::observe_owd`. -/
def observeOwd (c : CellularModeController) (owdUs : ℕ) : CellularModeController :=
  { c with detector := c.detector.observe owdUs }

/-- `CellularModeController::tick`. -/
def tick (c : CellularModeController) : CellularModeController :=
  let ticksSinceDecrease := saturatingSucc c.ticksSinceDecrease
  let (entryCounter, exitCounter) :=
    if c.detector.bimodal then (saturatingSucc c.entryCounter, 0)
    else (0, saturatingSucc c.exitCounter)
  if c.active = false ∧ cellularEntryTicks ≤ entryCounter then
    { c with active := true, entryCounter, exitCounter, ticksSinceDecrease }
  else if c.active = true ∧ cellularExitTicks ≤ exitCounter then
    { c with active := false, entryCounter := 0, exitCounter, ticksSinceDecrease }
  else { c with entryCounter, exitCounter, ticksSinceDecrease }

/-- `CellularModeController::record_decrease`. -/
def recordDecrease (c : CellularModeController) : CellularModeController :=
  { c with ticksSinceDecrease := 0 }

/-- `CellularModeController::gamma_multiplier`. -/
def gammaMultiplier (c : CellularModeController) : ℚ :=
  if c.active then cellularGammaMultiplier else 1

/-- `CellularModeController::can_decrease`. -/
def canDecrease (c : CellularModeController) : Bool :=
  if !c.active then true else cellularMinDecreaseTicks ≤ c.ticksSinceDecrease

/-- `CellularModeController::can_increase`. -/
def canIncrease (c : CellularModeController) (owdTrend : ℚ) : Bool :=
  if !c.active then true else owdTrend ≤ 0

end CellularModeController

/-- A call of the controller. -/
inductive CellularCall where
  /-- A delay is observed. -/
  | observeOwd (owdUs : ℕ)
  /-- A control tick. -/
  | tick
  /-- A rate decrease was applied. -/
  | recordDecrease

/-- The controller after a call. -/
def CellularModeController.call (c : CellularModeController) :
    CellularCall → CellularModeController
  | .observeOwd owdUs => c.observeOwd owdUs
  | .tick => c.tick
  | .recordDecrease => c.recordDecrease

/-! ## The history -/

/-- What the calls were: the delays, the verdicts at the ticks, and the ticks since the last
decrease, if there was one. -/
structure CellularHistory where
  /-- The delays, the oldest first. -/
  owds : List ℕ
  /-- The verdict on the delays so far, at each tick. -/
  verdicts : List Bool
  /-- The ticks since the last decrease. -/
  sinceDecrease : Option ℕ

namespace CellularHistory

/-- Nothing happened. -/
def init : CellularHistory := ⟨[], [], none⟩

/-- One more call. -/
def record (h : CellularHistory) : CellularCall → CellularHistory
  | .observeOwd owdUs => { h with owds := h.owds ++ [owdUs] }
  | .tick =>
    { h with
      verdicts := h.verdicts ++ [(BimodalDetector.new.observeAll h.owds).bimodal]
      sinceDecrease := h.sinceDecrease.map (· + 1) }
  | .recordDecrease => { h with sinceDecrease := some 0 }

/-- The last 20 verdicts at some tick were bimodal, and since then there were never 50 in a row that
were not. -/
def InCellularMode (h : CellularHistory) : Prop :=
  ∃ pre post, h.verdicts = pre ++ post ∧ 20 ≤ streak id pre ∧
    ∀ m, m <+: post → streak not (pre ++ m) < 50

end CellularHistory

/-- The controller has what the history says: the detector has seen the delays, the mode is that of
the hysteresis over the verdicts, and the counters are those of the history as far as they are
compared. -/
structure Follows (c : CellularModeController) (h : CellularHistory) : Prop where
  detector : c.detector = BimodalDetector.new.observeAll h.owds
  active : c.active =
    (run (Hysteresis.step cellularEntryTicks cellularExitTicks) .init h.verdicts).active
  entry : c.entryCounter = min (streak id h.verdicts) u32Max
  exit : c.exitCounter = min (streak not h.verdicts) u32Max
  never : h.sinceDecrease = none → cellularMinDecreaseTicks ≤ c.ticksSinceDecrease
  since : ∀ n, h.sinceDecrease = some n → c.ticksSinceDecrease = min n u32Max

/-- A new controller follows the empty history. -/
theorem follows_new : Follows .new .init where
  detector := rfl
  active := rfl
  entry := rfl
  exit := rfl
  never := fun _ => le_rfl
  since := nofun

/-- The threshold is below the bound of the counter. -/
theorem fifty_le_u32Max : 50 ≤ u32Max := by decide

/-- Counting one more below a bound. -/
theorem saturatingSucc_min (n : ℕ) :
    saturatingSucc (min n u32Max) = min (n + 1) u32Max := by
  unfold saturatingSucc
  omega

/-- A tick takes the verdict of the detector. -/
theorem follows_tick {c : CellularModeController} {h : CellularHistory} (hc : Follows c h) :
    Follows c.tick (h.record .tick) := by
  obtain ⟨hdetector, hactive, hentry, hexit, hnever, hsince⟩ := hc
  -- Every branch of the tick advances the count of ticks, and none touches the detector.
  have hticks : (c.tick).ticksSinceDecrease = saturatingSucc c.ticksSinceDecrease := by
    unfold CellularModeController.tick
    dsimp only
    split_ifs <;> rfl
  have hdet : (c.tick).detector = c.detector := by
    unfold CellularModeController.tick
    dsimp only
    split_ifs <;> rfl
  -- The two counters are the lengths of the current streaks, up to the largest `u32`.
  obtain ⟨hup, hdown⟩ :=
    @Hysteresis.counters_run cellularEntryTicks cellularExitTicks h.verdicts
  have hmode : (c.tick).active = (run (Hysteresis.step cellularEntryTicks cellularExitTicks) .init
      (h.verdicts ++ [c.detector.bimodal])).active ∧
      (c.tick).entryCounter = min (streak id (h.verdicts ++ [c.detector.bimodal])) u32Max ∧
      (c.tick).exitCounter = min (streak not (h.verdicts ++ [c.detector.bimodal])) u32Max := by
    rw [Hysteresis.run_concat, streak_concat, streak_concat, ← hup, ← hdown]
    rw [← hup] at hentry
    rw [← hdown] at hexit
    generalize run (Hysteresis.step cellularEntryTicks cellularExitTicks) .init h.verdicts = s at *
    -- The thresholds lie below the largest `u32`, so saturation does not hide them.
    have hmax := fifty_le_u32Max
    have henter : cellularEntryTicks ≤ min (s.up + 1) u32Max ↔
        cellularEntryTicks ≤ s.up + 1 := by
      unfold cellularEntryTicks
      generalize u32Max = most at hmax ⊢
      omega
    have hleave : cellularExitTicks ≤ min (s.down + 1) u32Max ↔
        cellularExitTicks ≤ s.down + 1 := by
      unfold cellularExitTicks
      generalize u32Max = most at hmax ⊢
      omega
    unfold CellularModeController.tick Hysteresis.step
    rw [hentry, hexit, hactive, saturatingSucc_min, saturatingSucc_min]
    -- A bimodal tick can only enter the mode, any other can only leave it.
    cases c.detector.bimodal with
    | true =>
      simp only [if_true, henter, Function.id_def, Bool.not_true]
      split_ifs <;> simp_all [cellularExitTicks]
    | false =>
      simp only [Bool.false_eq_true, if_false, hleave, Function.id_def, Bool.not_false]
      split_ifs <;> simp_all [cellularEntryTicks]
  refine ⟨hdet.trans hdetector, ?_, ?_, ?_, ?_, ?_⟩
  · rw [hmode.1, hdetector]
    rfl
  · rw [hmode.2.1, hdetector]
    rfl
  · rw [hmode.2.2, hdetector]
    rfl
  · intro hnone
    have hnone' : h.sinceDecrease = none := Option.map_eq_none_iff.mp hnone
    have hle := hnever hnone'
    have hmax := fifty_le_u32Max
    rw [hticks, saturatingSucc]
    unfold cellularMinDecreaseTicks at *
    generalize u32Max = most at hmax ⊢
    omega
  · intro n hn
    obtain ⟨k, hk, rfl⟩ := Option.map_eq_some_iff.mp hn
    rw [hticks, hsince k hk, saturatingSucc_min]

/-- A call keeps the controller in step with its history. -/
theorem follows_call {c : CellularModeController} {h : CellularHistory} (hc : Follows c h)
    (e : CellularCall) : Follows (c.call e) (h.record e) := by
  cases e with
  | tick => exact follows_tick hc
  | observeOwd owdUs =>
    refine ⟨?_, hc.active, hc.entry, hc.exit, hc.never, hc.since⟩
    show c.detector.observe owdUs = BimodalDetector.new.observeAll (h.owds ++ [owdUs])
    rw [hc.detector]
    unfold BimodalDetector.observeAll
    rw [List.foldl_append]
    rfl
  | recordDecrease =>
    refine ⟨hc.detector, hc.active, hc.entry, hc.exit, nofun, ?_⟩
    rintro n ⟨⟩
    rfl

/-- So do all calls of a run. -/
theorem follows_run {c : CellularModeController} {h : CellularHistory} (hc : Follows c h)
    (es : List CellularCall) :
    Follows (run CellularModeController.call c es) (run CellularHistory.record h es) := by
  induction es generalizing c h with
  | nil => exact hc
  | cons e es ih => exact ih (follows_call hc e)

/-- A decrease was recorded long enough ago, or never. -/
theorem Follows.decrease_iff {c : CellularModeController} {h : CellularHistory} (hc : Follows c h) :
    cellularMinDecreaseTicks ≤ c.ticksSinceDecrease ↔ ∀ n ∈ h.sinceDecrease, 30 ≤ n := by
  have hmax := fifty_le_u32Max
  cases hsince : h.sinceDecrease with
  | none => exact iff_of_true (hc.never hsince) nofun
  | some n =>
    rw [hc.since n hsince, cellularMinDecreaseTicks]
    simp only [Option.mem_def, Option.some.injEq, forall_eq']
    generalize u32Max = most at hmax ⊢
    omega

/-- After any calls, in any order: the mode is on exactly when the verdicts at the ticks say so, and
a decrease is allowed exactly when the mode is off or the last decrease, if there was one, is 30
ticks ago. -/
theorem cellular_history (es : List CellularCall) :
    let c := run CellularModeController.call .new es
    let h := run CellularHistory.record .init es
    (c.active = true ↔ h.InCellularMode) ∧
      (c.canDecrease = true ↔ ¬ h.InCellularMode ∨ ∀ n ∈ h.sinceDecrease, 30 ≤ n) := by
  intro c h
  have hfollows : Follows c h := follows_run follows_new es
  have hmode : c.active = true ↔ h.InCellularMode := by
    rw [hfollows.active]
    exact Hysteresis.active_run_iff (by decide) (by decide) h.verdicts
  refine ⟨hmode, ?_⟩
  rw [← hmode, ← hfollows.decrease_iff, CellularModeController.canDecrease]
  cases c.active <;> simp

end LowBand.Lbtp
