import LowBand.Platform.ControlLoop

/-!
# Codec gears of a tick

`select_codec_gears` (`core/platform/src/tier_gears.rs`) names the codec of every stream from the
tier, the budgets and the thermal constraints of one governor tick, with the Opus table of
`opus_encoder.rs` and the vocoder rule of `neural_vocoder.rs`.

The three inputs of a tick come from different places. The tier moves one step per tick and so lags
the estimate, the audio budget follows the estimate up to 24 kbps, and the offset for face tiles
follows the thermal level even when the camera has no budget. `targetBps_le_iff` compares the table
with the budget for a given tier and `tick_covered_iff` for a tick of the loop, by all that the
emitter can do. `gearsFitTick_iff` adds the camera's side, and `gearsFit_iff` is about all ticks of
a run.
-/

namespace LowBand.Platform

open Lib

/-! ## The audio gears -/

/-- Whether a neural accelerator is available. -/
inductive NpuCapability
  | present
  | absent
  deriving DecidableEq, Repr

/-- The audio codec of a tick. -/
inductive AudioGear
  | neuralVocoder (targetBps : ℕ)
  | opusSilk
  deriving DecidableEq, Repr

/-- The rate of the neural vocoder, `NEURAL_VOCODER_HI_BPS`. -/
def neuralVocoderHiBps : ℕ := 6000

/-- The vocoder runs at the bottom tier with an accelerator. -/
def audioGearFromTierAndNpu (tier : TierState) (npu : NpuCapability) : AudioGear :=
  if tier = .survival ∧ npu = .present then .neuralVocoder neuralVocoderHiBps else .opusSilk

/-- The Opus core. -/
inductive OpusMode
  | silkWb
  | silkHybridWb
  | hybridSwb
  | celtFb
  deriving DecidableEq, Repr

/-- The Opus settings of a tier. -/
structure OpusTierSettings where
  mode : OpusMode
  targetBps : ℕ
  deriving DecidableEq, Repr

/-- The Opus rate at the bottom tier, `SURVIVAL_FALLBACK_AUDIO_BPS`. -/
def survivalFallbackAudioBps : ℕ := 9000

/-- The Opus rate at `Constrained`, `CONSTRAINED_AUDIO_BPS`. -/
def constrainedAudioBps : ℕ := 16000

/-- The Opus rate at `Comfortable`, `COMFORTABLE_AUDIO_BPS`. -/
def comfortableAudioBps : ℕ := 24000

/-- The Opus rate at `Full`, `FULL_AUDIO_BPS`. -/
def fullAudioBps : ℕ := 32000

/-- The Opus settings of `Constrained`. -/
def constrainedTierSettings : OpusTierSettings := ⟨.silkHybridWb, constrainedAudioBps⟩

/-- The Opus table. -/
def opusSettingsFromTier : TierState → OpusTierSettings
  | .survival => ⟨.silkWb, survivalFallbackAudioBps⟩
  | .constrained => constrainedTierSettings
  | .comfortable => ⟨.hybridSwb, comfortableAudioBps⟩
  | .full => ⟨.celtFb, fullAudioBps⟩

/-! ## The gears of a tick -/

/-- The codec gears of the streams for one tick. -/
structure TierCodecGears where
  audioGear : AudioGear
  opusSettings : Option OpusTierSettings
  cameraGear : CameraGear
  screenRefinementEnabled : Bool
  displayResolution : Option DisplayResolution
  perFrameByteCap : ℕ
  roiDeltaQp : Int8
  deriving DecidableEq, Repr

/-- Select the gears from the tier, the budgets, the constraints and the accelerator. -/
def selectCodecGears (tier : TierState) (budgets : StreamBudgets) (constraints : GearConstraints)
    (npu : NpuCapability) : TierCodecGears :=
  let audioGear := audioGearFromTierAndNpu tier npu
  { audioGear
    opusSettings :=
      match audioGear with
      | .opusSilk => some (opusSettingsFromTier tier)
      | .neuralVocoder _ => none
    cameraGear := if budgets.cameraBps = 0 then .off else constraints.maxCameraGear
    screenRefinementEnabled :=
      constraints.screenRefinementAllowed && decide (0 < budgets.screenRefinementBps)
    displayResolution := budgets.displayResolution
    perFrameByteCap := budgets.perFrameByteCap
    roiDeltaQp := budgets.roiDeltaQp }

/-- The camera gear is gear B, with any preset. -/
def CameraGear.isGearB : CameraGear → Bool
  | gearB _ => true
  | _ => false

namespace TierCodecGears

/-- The rate that the selected audio encoder is told to aim at. -/
def audioTargetBps (g : TierCodecGears) : Option ℕ :=
  match g.audioGear with
  | .neuralVocoder targetBps => some targetBps
  | .opusSilk => g.opusSettings.map OpusTierSettings.targetBps

/-- The audio encoder aims at no more than the audio budget, and other camera gears than gear B have
no frame cap and no face offset. -/
def Fits (g : TierCodecGears) (budgets : StreamBudgets) : Prop :=
  (∃ target, g.audioTargetBps = some target ∧ target ≤ budgets.audioBps) ∧
    (g.cameraGear.isGearB = false → g.perFrameByteCap = 0 ∧ g.roiDeltaQp = 0)

end TierCodecGears

/-- The rate of the audio encoder at a tier. -/
def targetBps (tier : TierState) (npu : NpuCapability) : ℕ :=
  if tier = .survival ∧ npu = .present then neuralVocoderHiBps
  else (opusSettingsFromTier tier).targetBps

/-- The selected gears aim at the rate of the tier. -/
theorem audioTargetBps_selectCodecGears (tier : TierState) (budgets : StreamBudgets)
    (constraints : GearConstraints) (npu : NpuCapability) :
    (selectCodecGears tier budgets constraints npu).audioTargetBps = some (targetBps tier npu) := by
  unfold selectCodecGears TierCodecGears.audioTargetBps audioGearFromTierAndNpu targetBps
  by_cases h : tier = .survival ∧ npu = .present
  · simp only [if_pos h]
  · simp only [if_neg h, Option.map_some]

/-- The estimate that the audio rate of a tier needs, if any estimate is enough. -/
def neededBps (tier : TierState) (npu : NpuCapability) : Option ℕ :=
  match tier, npu with
  | .survival, .present => some 0
  | .survival, .absent => some survivalFallbackAudioBps
  | .constrained, _ => some constrainedAudioBps
  | .comfortable, _ => some comfortableAudioBps
  | .full, _ => none

/-- The estimate covers the audio rate of the tier. -/
def Covered (tier : TierState) (npu : NpuCapability) (bweBps : ℕ) : Prop :=
  ∃ needed, neededBps tier npu = some needed ∧ needed ≤ bweBps

/-- The audio rate of a tier fits the audio budget when the estimate is what the rate needs. The
rate of `Full` is above the most that the allocator gives to audio. -/
theorem targetBps_le_iff (tier : TierState) (npu : NpuCapability) (totalBps : ℕ)
    (thermal : ThermalPressure) :
    targetBps tier npu ≤ (allocate totalBps (.fromThermal thermal)).audioBps ↔
      Covered tier npu totalBps := by
  have haudio : (allocate totalBps (.fromThermal thermal)).audioBps
      = max (min totalBps 24000) 6000 := rfl
  rw [haudio]
  unfold targetBps Covered neededBps
  cases tier <;> cases npu <;>
    simp only [opusSettingsFromTier, constrainedTierSettings, neuralVocoderHiBps,
      survivalFallbackAudioBps, constrainedAudioBps, comfortableAudioBps, fullAudioBps,
      Option.some.injEq, exists_eq_left', reduceCtorEq, false_and, exists_false, and_false,
      and_true, if_true, if_false, iff_false] <;> omega

/-- The lowest tier is covered by an NPU, or by the bits of its fallback. -/
theorem covered_survival_iff {npu : NpuCapability} {b : ℕ} :
    Covered .survival npu b ↔ npu = .present ∨ survivalFallbackAudioBps ≤ b := by
  cases npu <;> simp [Covered, neededBps]

/-- The next one is covered by the bits of its audio. -/
theorem covered_constrained_iff {npu : NpuCapability} {b : ℕ} :
    Covered .constrained npu b ↔ constrainedAudioBps ≤ b := by
  simp [Covered, neededBps]

/-- So is the next. -/
theorem covered_comfortable_iff {npu : NpuCapability} {b : ℕ} :
    Covered .comfortable npu b ↔ comfortableAudioBps ≤ b := by
  simp [Covered, neededBps]

/-- The highest tier is not covered. -/
theorem not_covered_full {npu : NpuCapability} {b : ℕ} : ¬ Covered .full npu b := by
  simp [Covered, neededBps]

/-- The estimate is not below the trigger of a tier with this floor. -/
theorem le_of_not_below {tier : TierState} {floor b : ℕ} (hfloor : tierFloorBps tier = some floor)
    (h : ¬ Below tier b) : 4 * floor ≤ 5 * b := by
  by_contra hlt
  exact h ⟨floor, hfloor, Nat.lt_of_not_le hlt⟩

/-- The estimate reaches the floor of the tier above. -/
theorem le_of_headroom {tier up : TierState} {floor b : ℕ} (hup : tierStepUp tier = some up)
    (hfloor : tierFloorBps up = some floor) (h : Headroom tier b) : floor ≤ b := by
  obtain ⟨next, hnext, floor', hfloor', hle⟩ := h
  obtain rfl : up = next := Option.some.inj (hup.symm.trans hnext)
  obtain rfl : floor = floor' := Option.some.inj (hfloor.symm.trans hfloor')
  exact hle

namespace ControlLoop

/-- The condition on the audio side of a tick, by the tier before it. From `Full` the tick must go
down, to a tier whose rate the estimate covers. From `Comfortable` it must not go up, and the
estimate must cover the tier below. From the two lower tiers, without an accelerator, the estimate
must cover the rate of the bottom tier. -/
def AudioFunded (c : ControlLoop) (input : ControlLoopInput) (npu : NpuCapability) : Prop :=
  match c.currentTier with
  | .full => Below .full input.bweBps ∧ comfortableAudioBps ≤ input.bweBps
  | .comfortable =>
    constrainedAudioBps ≤ input.bweBps ∧
      ¬ (Headroom .comfortable input.bweBps ∧
        upgradeHoldTicks ≤ c.emitter.upgradeGuard.holdTicks + 1)
  | .constrained => npu = .present ∨ survivalFallbackAudioBps ≤ input.bweBps
  | .survival => npu = .present ∨ survivalFallbackAudioBps ≤ input.bweBps

/-- The condition on the camera side of a tick: at the levels that run gear B, the estimate leaves
something for the camera after audio, input and the coarse screen lane. -/
def CameraFunded (input : ControlLoopInput) : Prop :=
  input.thermal = .fair ∨ input.thermal = .serious → 52000 < input.bweBps

/-- The gears of a tick fit its budgets. -/
def GearsFitTick (c : ControlLoop) (input : ControlLoopInput) (npu : NpuCapability) : Prop :=
  (selectCodecGears (c.tick input).1.tier (c.tick input).1.budgets
    (.fromThermal input.thermal) npu).Fits (c.tick input).1.budgets

/-- A tick that goes down. The estimate is only known to be below the trigger, so it must cover the
rate of the tier below. -/
theorem covered_stepDown_iff {c : ControlLoop} {input : ControlLoopInput} (npu : NpuCapability)
    (hbelow : Below c.currentTier input.bweBps) :
    Covered (tierStepDown c.currentTier) npu input.bweBps ↔ AudioFunded c input npu := by
  have hroom : ¬ Headroom c.currentTier input.bweBps :=
    not_headroom_of_below hbelow (Nat.le_succ _)
  unfold AudioFunded
  cases hc : c.currentTier <;> rw [hc] at hbelow hroom
  case survival => exact absurd hbelow (by simp [Below, tierFloorBps])
  case constrained => exact covered_survival_iff
  case comfortable =>
    simp only [hroom, false_and, not_false_eq_true, and_true]
    exact covered_constrained_iff
  case full =>
    simp only [hbelow, true_and]
    exact covered_comfortable_iff

/-- A tick that goes up. The estimate reaches the floor of the new tier, which covers its rate
unless it is `Full`. -/
theorem covered_stepUp_iff {c : ControlLoop} {input : ControlLoopInput} (npu : NpuCapability)
    {up : TierState} (hup : tierStepUp c.currentTier = some up)
    (hroom : Headroom c.currentTier input.bweBps)
    (hhold : upgradeHoldTicks ≤ c.emitter.upgradeGuard.holdTicks + 1) :
    Covered up npu input.bweBps ↔ AudioFunded c input npu := by
  unfold AudioFunded
  cases hc : c.currentTier <;> rw [hc] at hup hroom <;> cases hup
  case survival =>
    have hb := le_of_headroom rfl rfl hroom
    unfold constrainedFloorBps at hb
    exact iff_of_true (covered_constrained_iff.mpr (by unfold constrainedAudioBps; omega))
      (Or.inr (by unfold survivalFallbackAudioBps; omega))
  case constrained =>
    have hb := le_of_headroom rfl rfl hroom
    unfold comfortableFloorBps at hb
    exact iff_of_true (covered_comfortable_iff.mpr (by unfold comfortableAudioBps; omega))
      (Or.inr (by unfold survivalFallbackAudioBps; omega))
  case comfortable => exact iff_of_false not_covered_full fun h => h.2 ⟨hroom, hhold⟩

/-- A tick that stays. The estimate is at least four fifths of the floor, which covers the rate of
every tier with a floor but `Full`. -/
theorem covered_stay_iff {c : ControlLoop} {input : ControlLoopInput} (npu : NpuCapability)
    (hbelow : ¬ Below c.currentTier input.bweBps)
    (hstay : ¬ (Headroom c.currentTier input.bweBps ∧
      upgradeHoldTicks ≤ c.emitter.upgradeGuard.holdTicks + 1)) :
    Covered c.currentTier npu input.bweBps ↔ AudioFunded c input npu := by
  unfold AudioFunded
  cases hc : c.currentTier <;> rw [hc] at hbelow hstay
  case survival => exact covered_survival_iff
  case constrained =>
    have hb := le_of_not_below rfl hbelow
    unfold constrainedFloorBps at hb
    exact iff_of_true (covered_constrained_iff.mpr (by unfold constrainedAudioBps; omega))
      (Or.inr (by unfold survivalFallbackAudioBps; omega))
  case comfortable =>
    have hb := le_of_not_below rfl hbelow
    unfold comfortableFloorBps at hb
    exact iff_of_true (covered_comfortable_iff.mpr (by unfold comfortableAudioBps; omega))
      ⟨by unfold constrainedAudioBps; omega, hstay⟩
  case full => exact iff_of_false not_covered_full fun h => hbelow h.1

/-- A tick emits a tier whose audio rate the estimate covers if and only if it meets the
condition. -/
theorem tick_covered_iff (c : ControlLoop) (input : ControlLoopInput) (npu : NpuCapability) :
    Covered (c.tick input).1.tier npu input.bweBps ↔ AudioFunded c input npu := by
  rw [tick_tier]
  obtain ⟨hbelow, ht⟩ | ⟨up, hup, hroom, hhold, ht⟩ | ⟨hroom, hhold, ht⟩ | ⟨hbelow, hroom, ht⟩ :=
    c.emitter.tick_cases c.currentTier input.bweBps <;> rw [next_eq ht]
  · exact covered_stepDown_iff npu hbelow
  · exact covered_stepUp_iff npu hup hroom hhold
  · exact covered_stay_iff npu (fun hb => not_headroom_of_below hb (Nat.le_succ _) hroom)
      fun h => absurd h.2 (Nat.not_le_of_lt hhold)
  · exact covered_stay_iff npu hbelow fun h => hroom h.1

/-! ## The camera's side -/

/-- The levels that run gear B. -/
theorem isGearB_fromThermal (thermal : ThermalPressure) :
    (GearConstraints.fromThermal thermal).maxCameraGear.isGearB = true ↔
      thermal = .fair ∨ thermal = .serious := by
  cases thermal <;> decide

/-- At these levels the camera's budget is what audio, input and the coarse screen lane leave. -/
theorem allocate_cameraBps (totalBps : ℕ) {thermal : ThermalPressure}
    (h : (GearConstraints.fromThermal thermal).maxCameraGear.isGearB = true) :
    (allocate totalBps (.fromThermal thermal)).cameraBps = min (totalBps - 52000) 300000 := by
  have hallowed : (GearConstraints.fromThermal thermal).cameraAllowed = true := by
    rcases (isGearB_fromThermal thermal).mp h with rfl | rfl <;> rfl
  have hfloor : (GearConstraints.fromThermal thermal).audioFloorBps = 6000 := rfl
  unfold allocate
  simp only [hallowed, if_true, hfloor, inputFloorBps]
  omega

/-- Without gear B there is no frame cap and no face offset. -/
theorem allocate_of_not_isGearB (totalBps : ℕ) {constraints : GearConstraints}
    (h : constraints.maxCameraGear.isGearB = false) :
    (allocate totalBps constraints).perFrameByteCap = 0 ∧
      (allocate totalBps constraints).roiDeltaQp = 0 := by
  unfold allocate
  cases hgear : constraints.maxCameraGear with
  | gearB preset =>
    rw [hgear] at h
    cases h
  | gearA => exact ⟨rfl, rfl⟩
  | gearC => exact ⟨rfl, rfl⟩
  | off => exact ⟨rfl, rfl⟩

/-- With gear B there is a face offset, whatever the camera's budget. -/
theorem allocate_roiDeltaQp_ne_zero (totalBps : ℕ) {constraints : GearConstraints}
    (h : constraints.maxCameraGear.isGearB = true) :
    (allocate totalBps constraints).roiDeltaQp ≠ 0 := by
  unfold allocate
  cases hgear : constraints.maxCameraGear with
  | gearB preset => exact (by decide : roiFaceDeltaQp ≠ 0)
  | gearA => rw [hgear] at h; cases h
  | gearC => rw [hgear] at h; cases h
  | off => rw [hgear] at h; cases h

/-- Other camera gears than gear B have no cap and no offset if and only if the camera is funded at
the levels that run gear B. -/
theorem camera_fits_iff (tier : TierState) (npu : NpuCapability) (input : ControlLoopInput) :
    ((selectCodecGears tier (allocate input.bweBps (.fromThermal input.thermal))
        (.fromThermal input.thermal) npu).cameraGear.isGearB = false →
      (allocate input.bweBps (.fromThermal input.thermal)).perFrameByteCap = 0 ∧
        (allocate input.bweBps (.fromThermal input.thermal)).roiDeltaQp = 0) ↔
      CameraFunded input := by
  unfold CameraFunded
  rw [← isGearB_fromThermal]
  cases hgear : (GearConstraints.fromThermal input.thermal).maxCameraGear.isGearB with
  | false => exact iff_of_true (fun _ => allocate_of_not_isGearB _ hgear) nofun
  | true =>
    have hroi := allocate_roiDeltaQp_ne_zero input.bweBps hgear
    have hcamera := allocate_cameraBps input.bweBps hgear
    simp only [true_imp_iff, hroi, and_false, imp_false, Bool.not_eq_false, selectCodecGears]
    by_cases hzero : (allocate input.bweBps (.fromThermal input.thermal)).cameraBps = 0
    · rw [if_pos hzero]
      exact iff_of_false (by decide) (by omega)
    · rw [if_neg hzero]
      exact iff_of_true hgear (by omega)

/-! ## All ticks -/

/-- The gears of a tick fit its budgets if and only if the tick meets both conditions. -/
theorem gearsFitTick_iff (c : ControlLoop) (input : ControlLoopInput) (npu : NpuCapability) :
    GearsFitTick c input npu ↔ AudioFunded c input npu ∧ CameraFunded input := by
  unfold GearsFitTick TierCodecGears.Fits
  rw [audioTargetBps_selectCodecGears]
  refine and_congr ?_ (camera_fits_iff _ npu input)
  simp only [Option.some.injEq, exists_eq_left']
  exact (targetBps_le_iff _ npu input.bweBps input.thermal).trans (tick_covered_iff c input npu)

/-- In every tick of a run the selected gears fit the budgets. -/
def GearsFit (inputs : List (ControlLoopInput × NpuCapability)) : Prop :=
  ∀ pre input npu post, inputs = pre ++ (input, npu) :: post →
    GearsFitTick (after (pre.map Prod.fst)) input npu

/-- In every tick of every run the selected gears fit the budgets if and only if every tick of the
run meets the conditions on its audio and its camera. -/
theorem gearsFit_iff (inputs : List (ControlLoopInput × NpuCapability)) :
    GearsFit inputs ↔
      Guarded (fun c tick => c.next tick.1)
        (fun c tick => AudioFunded c tick.1 tick.2 ∧ CameraFunded tick.1) new inputs := by
  have hrun : ∀ pre : List (ControlLoopInput × NpuCapability),
      run (fun c tick => c.next tick.1) new pre = after (pre.map Prod.fst) := by
    intro pre
    unfold run after
    exact List.foldl_map.symm
  rw [guarded_iff_forall_append]
  unfold GearsFit
  simp only [gearsFitTick_iff, hrun, Prod.forall]

/-- The first tick on a link of 8 kbps without an accelerator asks Opus for 9 kbps, and at the
`Fair` level it sets the face offset for a camera that is off. -/
theorem not_gearsFit :
    ¬ GearsFit [(⟨8000, 30, 0, .nominal⟩, .absent)] ∧
      ¬ GearsFit [(⟨50000, 30, 0, .fair⟩, .absent)] := by
  constructor
  · intro h
    have hfit : GearsFitTick new ⟨8000, 30, 0, .nominal⟩ .absent := h [] _ _ [] rfl
    obtain hnpu | hbwe := ((gearsFitTick_iff _ _ _).mp hfit).1
    · cases hnpu
    · exact absurd hbwe (by decide)
  · intro h
    have hfit : GearsFitTick new ⟨50000, 30, 0, .fair⟩ .absent := h [] _ _ [] rfl
    have hcamera := ((gearsFitTick_iff _ _ _).mp hfit).2 (Or.inl rfl)
    exact absurd hcamera (by decide)

end ControlLoop

end LowBand.Platform
