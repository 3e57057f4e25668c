import Mathlib.Tactic.Common

/-!
# Gear policy and budget allocation

The thermal gear policy and the strict-priority allocator of `core/platform/src/gear_policy.rs`. The
allocator funds audio, input, the coarse screen lane, the camera, screen refinement and file
transfer in this order, each from what the streams before it leave.

`allocate_xferBps` says what is left for file transfer: the total less the caps of the streams that
the thermal level permits. A level that switches streams off leaves more for file transfer.
-/

namespace LowBand.Platform

/-- The thermal pressure level. -/
inductive ThermalPressure
  | nominal
  | fair
  | serious
  | critical
  deriving DecidableEq, Repr

/-- The result of the startup probe for AV1 encoding. -/
inductive Av1EncodeCapability
  | capable
  | legacy
  deriving DecidableEq, Repr

/-- The camera gear that may run. -/
inductive CameraGear
  | gearA
  | gearB (svtPreset : UInt8)
  | gearC
  | off
  deriving DecidableEq, Repr

/-- The bit rate that audio always receives, `AUDIO_FLOOR_BPS`. -/
def audioFloorBps : ℕ := 6000

/-- The least input allocation, `INPUT_FLOOR_BPS`. -/
def inputFloorBps : ℕ := 3000

/-- The frame rate of gear B, `GEAR_B_TARGET_FPS`. -/
def gearBTargetFps : ℕ := 30

/-- The quantiser offset for face tiles, `ROI_FACE_DELTA_QP`. -/
def roiFaceDeltaQp : Int8 := -3

/-- Twice the average bytes of a frame. -/
def gearBPerFrameByteCap (cameraBps fps : ℕ) : ℕ :=
  if fps = 0 then 0 else cameraBps * 2 / (8 * fps)

/-- A display resolution. -/
structure DisplayResolution where
  width : ℕ
  height : ℕ
  deriving DecidableEq, Repr

/-- The screen budget from which the higher resolution is used, `SCREEN_UPGRADE_BPS`. -/
def screenUpgradeBps : ℕ := 10000

/-- The resolutions in ascending order, with the screen budget that each needs. -/
def resolutionLadder : List (DisplayResolution × ℕ) :=
  [(⟨640, 360⟩, 0), (⟨848, 480⟩, screenUpgradeBps)]

/-- The highest resolution that the screen budget sustains. -/
def selectResolution (screenCoarseBps : ℕ) : Option DisplayResolution :=
  (resolutionLadder.reverse.find? fun rung => decide (rung.2 ≤ screenCoarseBps)).map Prod.fst

/-- What the thermal level permits. -/
structure GearConstraints where
  maxCameraGear : CameraGear
  screenRefinementAllowed : Bool
  audioFloorBps : ℕ
  thermalLevel : ThermalPressure
  av1Encode : Av1EncodeCapability
  deriving DecidableEq, Repr

namespace GearConstraints

/-- The constraints of a thermal level on a host with the given encoder capability. -/
def fromThermalWithCapability (pressure : ThermalPressure) (av1Cap : Av1EncodeCapability) :
    GearConstraints :=
  let (maxCameraGear, screenRefinementAllowed) :=
    match pressure with
    | .nominal => (CameraGear.gearA, true)
    | .fair => (CameraGear.gearB 11, true)
    | .serious => (CameraGear.gearB 12, false)
    | .critical => (CameraGear.off, false)
  let maxCameraGear :=
    if av1Cap = .legacy then
      match maxCameraGear with
      | .gearA => .gearC
      | .gearB _ => .gearC
      | other => other
    else maxCameraGear
  { maxCameraGear
    screenRefinementAllowed
    audioFloorBps := LowBand.Platform.audioFloorBps
    thermalLevel := pressure
    av1Encode := av1Cap }

/-- The constraints of a thermal level on a host that can encode AV1. -/
def fromThermal (pressure : ThermalPressure) : GearConstraints :=
  fromThermalWithCapability pressure .capable

/-- Whether any camera output is permitted. -/
def cameraAllowed (c : GearConstraints) : Bool := c.maxCameraGear != .off

end GearConstraints

/-- The budgets of the streams for one governor interval. -/
structure StreamBudgets where
  audioBps : ℕ
  inputBps : ℕ
  screenCoarseBps : ℕ
  cameraBps : ℕ
  screenRefinementBps : ℕ
  xferBps : ℕ
  displayResolution : Option DisplayResolution
  perFrameByteCap : ℕ
  roiDeltaQp : Int8
  deriving DecidableEq, Repr

/-- Divide the total over the streams in order of priority. -/
def allocate (totalBps : ℕ) (constraints : GearConstraints) : StreamBudgets :=
  let remaining := totalBps
  let audioBps := max (min remaining 24000) constraints.audioFloorBps
  let remaining := remaining - audioBps
  let inputBps := max (min remaining 8000) (min inputFloorBps remaining)
  let remaining := remaining - inputBps
  let screenCoarseBps := min remaining 20000
  let remaining := remaining - screenCoarseBps
  let cameraBps := if constraints.cameraAllowed then min remaining 300000 else 0
  let remaining := remaining - cameraBps
  let screenRefinementBps := if constraints.screenRefinementAllowed then min remaining 50000 else 0
  let remaining := remaining - screenRefinementBps
  let xferBps := remaining
  let perFrameByteCap :=
    match constraints.maxCameraGear with
    | .gearB _ => gearBPerFrameByteCap cameraBps gearBTargetFps
    | _ => 0
  let roiDeltaQp :=
    match constraints.maxCameraGear with
    | .gearB _ => roiFaceDeltaQp
    | _ => 0
  { audioBps, inputBps, screenCoarseBps, cameraBps, screenRefinementBps, xferBps
    displayResolution := selectResolution screenCoarseBps
    perFrameByteCap, roiDeltaQp }

/-- The ladder has a rung for every budget, so that `select_resolution` never panics. -/
theorem selectResolution_isSome (screenCoarseBps : ℕ) :
    (selectResolution screenCoarseBps).isSome := by
  unfold selectResolution
  rw [Option.isSome_map, List.find?_isSome]
  exact ⟨(⟨640, 360⟩, 0), by decide, by simp⟩

/-- The most that the streams before file transfer take at a thermal level: 24 kbps of audio,
8 kbps of input and 20 kbps of screen, 300 kbps of camera unless it is off, and 50 kbps of
refinement unless it is suspended. -/
def fundedBps : ThermalPressure → ℕ
  | .nominal => 52000 + 300000 + 50000
  | .fair => 52000 + 300000 + 50000
  | .serious => 52000 + 300000
  | .critical => 52000

/-- A stream with a cap leaves what is above the cap. -/
theorem sub_capped (remaining cap : ℕ) : remaining - min remaining cap = remaining - cap := by omega

/-- The floor of a stream does not change what is left for the others when it is below the cap. -/
theorem sub_floored {remaining cap floor : ℕ} (h : floor ≤ cap) :
    remaining - max (min remaining cap) floor = remaining - cap := by omega

/-- File transfer is given all that the other streams leave. -/
theorem allocate_xferBps (totalBps : ℕ) (thermal : ThermalPressure) :
    (allocate totalBps (.fromThermal thermal)).xferBps = totalBps - fundedBps thermal := by
  have haudio : totalBps - max (min totalBps 24000) audioFloorBps = totalBps - 24000 :=
    sub_floored (by decide)
  have hinput : ∀ remaining, remaining - max (min remaining 8000) (min inputFloorBps remaining)
      = remaining - 8000 :=
    fun remaining => sub_floored (Nat.le_trans (Nat.min_le_left _ _) (by decide))
  unfold allocate GearConstraints.fromThermal GearConstraints.fromThermalWithCapability
    GearConstraints.cameraAllowed
  cases thermal <;> simp [haudio, hinput, sub_capped, fundedBps, Nat.sub_sub]

end LowBand.Platform
