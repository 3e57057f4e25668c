import LowBand.Lib.Shares
import LowBand.Platform.GearPolicy
import Mathlib.Algebra.Order.Group.Nat
import Mathlib.Algebra.Order.Ring.Rat
import Mathlib.Algebra.Ring.Nat

/-!
# The budget law

The strict-priority law of `allocate` in `gear_policy.rs`, for the constraints that the constructors
of `GearConstraints` build from the thermal level, the capability of the host, the load of the CPU
and the presence of an NPU.

Audio is given its floor whatever the total; above that, the allocator divides the total by strict
priority among the caps of the streams (`allocate_eq_shares`), of which a stream that is switched
off has none. On 32-bit words the allocator computes the same (`allocateU32_eq`): only the
per-frame byte cap multiplies, and its factors are small.
-/

namespace LowBand.Platform

open Lib

/-! ## The constructors -/

/-- An `f64`, as far as comparisons with constants see it. -/
inductive F64
  | finite (x : ℚ)
  | posInf
  | negInf
  | nan
  deriving DecidableEq

/-- `x < t`. -/
def F64.lt : F64 → ℚ → Bool
  | .finite x, t => x < t
  | .negInf, _ => true
  | .posInf, _ => false
  | .nan, _ => false

/-- `CPU_PRESET10_THRESHOLD_PCT`. -/
def cpuPreset10ThresholdPct : ℚ := 50

/-- `CPU_PRESET11_THRESHOLD_PCT`. -/
def cpuPreset11ThresholdPct : ℚ := 75

/-- `CPU_HEADROOM_THRESHOLD_PCT`. -/
def cpuHeadroomThresholdPct : ℚ := 50

/-- `gear_b_preset_from_cpu_pct`. -/
def gearBPresetFromCpuPct (cpuPct : F64) : UInt8 :=
  if cpuPct.lt cpuPreset10ThresholdPct then 10
  else if cpuPct.lt cpuPreset11ThresholdPct then 11
  else 12

/-- `HeadGearCapability`. -/
inductive HeadGearCapability
  | available
  | rejected
  deriving DecidableEq

/-- `head_gear_available`. -/
def headGearAvailable (hasNpu : Bool) (cpuUsagePct : F64) : HeadGearCapability :=
  if hasNpu || cpuUsagePct.lt cpuHeadroomThresholdPct then .available else .rejected

namespace GearConstraints

/-- `from_thermal_with_capability_and_cpu`. -/
def fromThermalWithCapabilityAndCpu (pressure : ThermalPressure) (av1Cap : Av1EncodeCapability)
    (cpuUsagePct : F64) : GearConstraints :=
  let (maxCameraGear, screenRefinementAllowed) :=
    match pressure with
    | .nominal => (CameraGear.gearA, true)
    | .fair => (CameraGear.gearB (gearBPresetFromCpuPct cpuUsagePct), true)
    | .serious => (CameraGear.gearB 12, false)
    | .critical => (CameraGear.off, false)
  let maxCameraGear :=
    if av1Cap = .legacy then
      match maxCameraGear with
      | .gearA => .gearC
      | .gearB _ => .gearC
      | other => other
    else maxCameraGear
  { maxCameraGear
    screenRefinementAllowed
    audioFloorBps := LowBand.Platform.audioFloorBps
    thermalLevel := pressure
    av1Encode := av1Cap }

/-- `from_thermal_with_capability_cpu_and_npu`. -/
def fromThermalWithCapabilityCpuAndNpu (pressure : ThermalPressure) (av1Cap : Av1EncodeCapability)
    (cpuUsagePct : F64) (hasNpu : Bool) : GearConstraints :=
  let constraints := fromThermalWithCapabilityAndCpu pressure av1Cap cpuUsagePct
  if constraints.maxCameraGear = .gearA ∧ headGearAvailable hasNpu cpuUsagePct = .rejected then
    { constraints with maxCameraGear := .gearB (gearBPresetFromCpuPct cpuUsagePct) }
  else constraints

/-- The constraints that the `from_thermal` constructors build. -/
inductive FromThermal : GearConstraints → Prop
  | fromThermal (pressure) : FromThermal (.fromThermal pressure)
  | withCapability (pressure av1Cap) :
    FromThermal (.fromThermalWithCapability pressure av1Cap)
  | withCapabilityAndCpu (pressure av1Cap cpuUsagePct) :
    FromThermal (.fromThermalWithCapabilityAndCpu pressure av1Cap cpuUsagePct)
  | withCapabilityCpuAndNpu (pressure av1Cap cpuUsagePct hasNpu) :
    FromThermal (.fromThermalWithCapabilityCpuAndNpu pressure av1Cap cpuUsagePct hasNpu)

/-- Every constructor sets the floor of audio. -/
theorem FromThermal.audioFloorBps_eq {c : GearConstraints} (h : c.FromThermal) :
    c.audioFloorBps = LowBand.Platform.audioFloorBps := by
  cases h with
  | fromThermal | withCapability | withCapabilityAndCpu => rfl
  | withCapabilityCpuAndNpu pressure av1Cap cpuUsagePct hasNpu =>
    unfold fromThermalWithCapabilityCpuAndNpu
    dsimp only
    split <;> rfl

end GearConstraints

/-! ## The division by priority -/

/-- The budgets in the order of the priorities. -/
def StreamBudgets.list (b : StreamBudgets) : List ℕ :=
  [b.audioBps, b.inputBps, b.screenCoarseBps, b.cameraBps, b.screenRefinementBps, b.xferBps]

/-- The most that the streams in front of file transfer are given; a stream that is not permitted
is given nothing. -/
def GearConstraints.caps (c : GearConstraints) : List ℕ :=
  [24000, 8000, 20000, if c.cameraAllowed then 300000 else 0,
    if c.screenRefinementAllowed then 50000 else 0]

/-- The allocator divides by strict priority, but for the floor of audio. -/
theorem allocate_eq_shares {c : GearConstraints} (h : c.audioFloorBps ≤ 24000) (totalBps : ℕ) :
    (allocate totalBps c).list =
      ((shares c.caps totalBps).modify 0 (max · c.audioFloorBps)) ++
        [totalBps - c.caps.sum] := by
  have hleft : totalBps - max (min totalBps 24000) c.audioFloorBps = totalBps - 24000 :=
    sub_floored h
  have hinput : ∀ r, max (min r 8000) (min inputFloorBps r) = min r 8000 := by
    intro r
    unfold inputFloorBps
    omega
  unfold allocate StreamBudgets.list GearConstraints.caps
  simp only [hleft, hinput, shares, sub_min_cap, List.modify_zero_cons, List.cons_append,
    List.nil_append, List.sum_cons, List.sum_nil, ← Nat.sub_sub, Nat.sub_zero]
  cases c.cameraAllowed <;> cases c.screenRefinementAllowed <;> simp [Nat.sub_sub] <;> omega

/-! ## On 32-bit words -/

/-- A product of `u32`, which panics when it overflows. -/
def mulU32 (a b : UInt32) : Option UInt32 :=
  if a.toNat * b.toNat < 2 ^ 32 then some (a * b) else none

/-- `u32::saturating_sub`. -/
def saturatingSubU32 (a b : UInt32) : UInt32 := if b ≤ a then a - b else 0

/-- `gear_b_per_frame_byte_cap` on words. -/
def gearBPerFrameByteCapU32 (cameraBps fps : UInt32) : Option UInt32 :=
  if fps = 0 then some 0
  else do
    let bits ← mulU32 cameraBps 2
    let rate ← mulU32 8 fps
    pure (bits / rate)

/-- `allocate` on words, or a panic. -/
def allocateU32 (totalBps : UInt32) (constraints : GearConstraints) : Option StreamBudgets := do
  let remaining := totalBps
  let audioBps := max (min remaining 24000) (UInt32.ofNat constraints.audioFloorBps)
  let remaining := saturatingSubU32 remaining audioBps
  let inputBps := max (min remaining 8000) (min (UInt32.ofNat inputFloorBps) remaining)
  let remaining := saturatingSubU32 remaining inputBps
  let screenCoarseBps := min remaining 20000
  let remaining := saturatingSubU32 remaining screenCoarseBps
  let cameraBps := if constraints.cameraAllowed then min remaining 300000 else 0
  let remaining := saturatingSubU32 remaining cameraBps
  let screenRefinementBps := if constraints.screenRefinementAllowed then min remaining 50000 else 0
  let remaining := saturatingSubU32 remaining screenRefinementBps
  let xferBps := remaining
  let perFrameByteCap ←
    match constraints.maxCameraGear with
    | .gearB _ => gearBPerFrameByteCapU32 cameraBps (UInt32.ofNat gearBTargetFps)
    | _ => some 0
  let roiDeltaQp :=
    match constraints.maxCameraGear with
    | .gearB _ => roiFaceDeltaQp
    | _ => 0
  pure
    { audioBps := audioBps.toNat
      inputBps := inputBps.toNat
      screenCoarseBps := screenCoarseBps.toNat
      cameraBps := cameraBps.toNat
      screenRefinementBps := screenRefinementBps.toNat
      xferBps := xferBps.toNat
      displayResolution := selectResolution screenCoarseBps.toNat
      perFrameByteCap := perFrameByteCap.toNat
      roiDeltaQp }

/-- The smaller of two words is the smaller number. -/
theorem toNat_minU32 (a b : UInt32) : (min a b).toNat = min a.toNat b.toNat := by
  change (if a ≤ b then a else b).toNat = _
  simp only [UInt32.le_iff_toNat_le]
  split <;> omega

/-- The larger is the larger one. -/
theorem toNat_maxU32 (a b : UInt32) : (max a b).toNat = max a.toNat b.toNat := by
  change (if a ≤ b then b else a).toNat = _
  simp only [UInt32.le_iff_toNat_le]
  split <;> omega

/-- A subtraction that saturates is that of natural numbers. -/
theorem toNat_saturatingSubU32 (a b : UInt32) :
    (saturatingSubU32 a b).toNat = a.toNat - b.toNat := by
  unfold saturatingSubU32
  split
  · next h => exact UInt32.toNat_sub_of_le a b h
  · next h =>
    rw [UInt32.le_iff_toNat_le] at h
    simp only [UInt32.toNat_zero]
    omega

/-- The cap of a camera budget of at most 300 kbps does not overflow. -/
theorem gearBPerFrameByteCapU32_eq {cameraBps : UInt32} (h : cameraBps.toNat ≤ 300000) :
    ∃ cap, gearBPerFrameByteCapU32 cameraBps (UInt32.ofNat gearBTargetFps) = some cap ∧
      cap.toNat = gearBPerFrameByteCap cameraBps.toNat gearBTargetFps := by
  have hbits : mulU32 cameraBps 2 = some (cameraBps * 2) := if_pos (by simp; omega)
  have hrate : mulU32 8 30 = some 240 := by decide
  refine ⟨cameraBps * 2 / 240, ?_, ?_⟩
  · change (if (30 : UInt32) = 0 then some 0 else _) = _
    rw [if_neg (by decide)]
    change ((mulU32 cameraBps 2).bind fun bits => (mulU32 8 30).bind fun rate => _) = _
    rw [hbits, hrate]
    rfl
  · have hmul : (cameraBps * 2).toNat = cameraBps.toNat * 2 := by
      rw [UInt32.toNat_mul]
      exact Nat.mod_eq_of_lt (by simp; omega)
    rw [UInt32.toNat_div, hmul]
    rfl

/-- On words the allocator computes the same, and does not panic. -/
theorem allocateU32_eq {c : GearConstraints} (h : c.audioFloorBps < 2 ^ 32) (totalBps : UInt32) :
    allocateU32 totalBps c = some (allocate totalBps.toNat c) := by
  have haudio : (UInt32.ofNat c.audioFloorBps).toNat = c.audioFloorBps :=
    UInt32.toNat_ofNat_of_lt' h
  have hinput : (UInt32.ofNat inputFloorBps).toNat = inputFloorBps := by decide
  have hif : ∀ (b : Bool) (x : UInt32), (if b then x else 0).toNat = if b then x.toNat else 0 := by
    intro b x
    cases b <;> rfl
  have hcamera : ∀ r : UInt32, (if c.cameraAllowed then min r 300000 else 0).toNat ≤ 300000 := by
    intro r
    rw [hif, toNat_minU32]
    split
    · exact min_le_right _ _
    · exact Nat.zero_le _
  unfold allocateU32 allocate
  -- Only the gear with a preset computes a cap of bytes for a frame.
  cases hgear : c.maxCameraGear with
  | gearB preset =>
    dsimp only
    obtain ⟨cap, hcap, hval⟩ := gearBPerFrameByteCapU32_eq (hcamera _)
    rw [hcap]
    simp [toNat_minU32, toNat_maxU32, toNat_saturatingSubU32, haudio, hinput, hif, hval]
  | gearA | gearC | off =>
    simp [toNat_minU32, toNat_maxU32, toNat_saturatingSubU32, haudio, hinput, hif]

/-! ## The law -/

/-- The caps, of audio and of the others. -/
theorem caps_eq (c : GearConstraints) : c.caps = 24000 :: c.caps.tail := rfl

/-- Audio takes its share or its floor, and the others divide what is above its cap. -/
theorem list_allocate {c : GearConstraints} (h : c.FromThermal) (totalBps : ℕ) :
    (allocate totalBps c).list =
      max (min totalBps 24000) 6000 :: shares c.caps.tail (totalBps - 24000) ++
        [totalBps - c.caps.sum] := by
  have hfloor : c.audioFloorBps = 6000 := h.audioFloorBps_eq
  have hshares : shares c.caps totalBps =
      min totalBps 24000 :: shares c.caps.tail (totalBps - 24000) := by
    rw [caps_eq, shares, sub_min_cap, List.tail_cons]
  rw [allocate_eq_shares (by omega), hfloor, hshares, List.modify_zero_cons]

/-- The budgets make up the total, or the floor of audio. -/
theorem sum_list_allocate {c : GearConstraints} (h : c.FromThermal) (totalBps : ℕ) :
    (allocate totalBps c).list.sum = max totalBps audioFloorBps := by
  have hsum : min totalBps 24000 + (shares c.caps.tail (totalBps - min totalBps 24000)).sum +
      (totalBps - c.caps.sum) = totalBps := sum_shares_add c.caps totalBps
  rw [list_allocate h, List.sum_append, List.sum_cons, List.sum_singleton, audioFloorBps]
  rw [sub_min_cap] at hsum
  omega

/-- A larger total makes no budget smaller. -/
theorem list_allocate_mono {c : GearConstraints} (h : c.FromThermal) {totalBps totalBps' : ℕ}
    (hle : totalBps ≤ totalBps') :
    List.Forall₂ (· ≤ ·) (allocate totalBps c).list (allocate totalBps' c).list := by
  rw [list_allocate h, list_allocate h]
  have hhead : max (min totalBps 24000) 6000 ≤ max (min totalBps' 24000) 6000 := by omega
  have htail := @shares_mono _ _ _ _ _ _ c.caps.tail _ _ (Nat.sub_le_sub_right hle 24000)
  have hrest := Nat.sub_le_sub_right hle c.caps.sum
  exact List.rel_append (.cons hhead htail) (.cons hrest .nil)

/-- File transfer is a claimant too, whose cap is the total. -/
theorem shares_caps_append (c : GearConstraints) (totalBps : ℕ) :
    shares (c.caps ++ [totalBps]) totalBps =
      min totalBps 24000 :: shares c.caps.tail (totalBps - 24000) ++ [totalBps - c.caps.sum] := by
  have hxfer : shares [totalBps] (totalBps - c.caps.sum) = [totalBps - c.caps.sum] := by
    rw [shares, shares, min_eq_left (Nat.sub_le _ _)]
  rw [shares_append, hxfer, caps_eq, shares, sub_min_cap, List.tail_cons]

/-- A stream is given something only when every stream of higher priority is at its cap. -/
theorem list_allocate_full {c : GearConstraints} (h : c.FromThermal) {totalBps i j x y cap : ℕ}
    (hij : i < j) (hx : (allocate totalBps c).list[i]? = some x) (hcap : c.caps[i]? = some cap)
    (hy : (allocate totalBps c).list[j]? = some y) (hpos : 0 < y) : x = cap := by
  have hlist := list_allocate h totalBps
  have hcapped := shares_caps_append c totalBps
  have hi : i < c.caps.length := (List.getElem?_eq_some_iff.mp hcap).1
  have hcap' : (c.caps ++ [totalBps])[i]? = some cap := by
    rw [List.getElem?_append_left hi, hcap]
  obtain ⟨j, rfl⟩ : ∃ k, j = k + 1 := ⟨j - 1, by omega⟩
  have hy' : (shares (c.caps ++ [totalBps]) totalBps)[j + 1]? = some y := by
    rw [hcapped, ← hy, hlist]
    rfl
  rw [hlist] at hx
  cases i with
  | zero =>
    -- audio may have its floor instead of its share, but not when another stream has something
    have hfull := eq_cap_of_share_pos hij (by rw [hcapped]; rfl) hcap' hy' hpos
    obtain rfl : 24000 = cap := Option.some.inj hcap
    obtain rfl : max (min totalBps 24000) 6000 = x := Option.some.inj hx
    omega
  | succ i =>
    refine eq_cap_of_share_pos hij ?_ hcap' hy' hpos
    rw [hcapped, ← hx]
    rfl

/-- For a total on 32-bit words and the constraints of a constructor, the allocator does not panic;
the budgets make up the total, or the floor of audio where that is more; no budget gets smaller when
the total grows; and a stream is given something only when all streams of higher priority that are
permitted are at their caps. -/
theorem allocateU32_strictPriority {c : GearConstraints} (h : c.FromThermal) (totalBps : UInt32) :
    ∃ b, allocateU32 totalBps c = some b ∧
      b.list.sum = max totalBps.toNat audioFloorBps ∧
      (∀ (totalBps' : UInt32) (b' : StreamBudgets), totalBps ≤ totalBps' →
        allocateU32 totalBps' c = some b' → List.Forall₂ (· ≤ ·) b.list b'.list) ∧
      ∀ (i j x y cap : ℕ), i < j → b.list[i]? = some x → c.caps[i]? = some cap →
        b.list[j]? = some y → 0 < y → x = cap := by
  have hlt : c.audioFloorBps < 2 ^ 32 := by
    rw [h.audioFloorBps_eq]
    decide
  refine ⟨allocate totalBps.toNat c, allocateU32_eq hlt totalBps,
    sum_list_allocate h totalBps.toNat, ?_, ?_⟩
  · intro totalBps' b' hle hb'
    rw [allocateU32_eq hlt, Option.some.injEq] at hb'
    subst hb'
    exact list_allocate_mono h (UInt32.le_iff_toNat_le.mp hle)
  · intro i j x y cap hij hx hcap hy hpos
    exact list_allocate_full h hij hx hcap hy hpos

/-- A host with a busy CPU and no NPU at 100 kbps. -/
theorem allocateU32_busy :
    ∃ b, allocateU32 100000
        (.fromThermalWithCapabilityCpuAndNpu .nominal .capable (.finite 80) false) = some b ∧
      b.list.sum = 100000 := by
  obtain ⟨b, hb, hsum, -⟩ := allocateU32_strictPriority
    (.withCapabilityCpuAndNpu .nominal .capable (.finite 80) false) 100000
  exact ⟨b, hb, hsum⟩

end LowBand.Platform
