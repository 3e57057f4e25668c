import LowBand.Platform.Ipc

/-!
# Frames on the wire

`encode_event`, `read_frame` and `read_loop` of `core/platform/src/ipc.rs`: the daemon and a shell
exchange events as frames in a byte stream.

The FlatBuffer builder is a library, and a parameter here: from the values that are pushed to the
slots of a table it makes a buffer. `HasTable` states the documented layout of that buffer as far as
it is read back: a root offset, a vtable inside the buffer, and for each slot a position or nothing.
A slot whose value is the default is not pushed, and reads as this default.

An event that is sent is received as `received` says: the fields that are not on the wire are
computed again or fixed, and the negative zero is a zero (`decodeFrame_eventBody`). This is all that
is lost, so two events have the same frame exactly when they are received as the same event
(`encodeEvent_received_iff`). A stream of frames that breaks off anywhere gives the events of the
frames that are complete, and no other (`readLoop_take`).
-/

namespace LowBand.Platform

open Lib

/-! ## Encoding -/

/-- `voff`, the place of the entry of field `n` in the vtable. -/
def voff (n : ℕ) : ℕ := 4 + 2 * n

/-- A value that is pushed to a slot. -/
inductive Scalar
  | u8 (b : UInt8)
  | u32 (n : ℕ)
  | f32 (bits : ℕ)
  | bool (b : Bool)
  deriving DecidableEq, Repr

namespace Scalar

/-- The value is the default of its slot. Both zeros of `f32` are equal to the default. -/
def isDefault : Scalar → Bool
  | u8 b => b == 0
  | u32 n => n == 0
  | f32 bits => bits == 0 || bits == 2 ^ 31
  | bool b => !b

/-- The bytes of a value in a table. -/
def bytes : Scalar → List UInt8
  | u8 b => [b]
  | u32 n => leBytes 4 n
  | f32 bits => leBytes 4 bits
  | bool b => [if b then 1 else 0]

end Scalar

/-- `push_slot` for the fields from `n` on: the entries and the bytes of those that are not the
default. -/
def pushSlots : ℕ → List Scalar → List (ℕ × List UInt8)
  | _, [] => []
  | n, x :: xs => (if x.isDefault then [] else [(voff n, x.bytes)]) ++ pushSlots (n + 1) xs

/-- The byte of a tier. -/
def tierToU8 : TierState → UInt8
  | .survival => 0
  | .constrained => 1
  | .comfortable => 2
  | .full => 3

/-- The byte of a thermal level. -/
def thermalToU8 : ThermalPressure → UInt8
  | .nominal => 0
  | .fair => 1
  | .serious => 2
  | .critical => 3

/-- The kind and the preset of a camera gear. -/
def cameraGearToPair : CameraGear → UInt8 × UInt8
  | .gearA => (0, 0)
  | .gearB svtPreset => (1, svtPreset)
  | .off => (2, 0)
  | .gearC => (3, 0)

/-- The byte of an encoder capability. -/
def av1CapToU8 : Av1EncodeCapability → UInt8
  | .capable => 0
  | .legacy => 1

/-- The byte of a reason. -/
def reasonToU8 : EscalationReason → UInt8
  | .screenCapture => 0
  | .inputInjection => 1
  | .serviceInstall => 2
  | .protectedWrite => 3

/-- The byte of an outcome. -/
def outcomeToU8 : ElevationOutcome → UInt8
  | .granted => 0
  | .denied => 1
  | .unavailable => 2

/-- The values that `encode_tier` pushes, from slot 0 on. -/
def encodeTier (tier : TierState) (cpuPercent : ℕ) (thermal : ThermalPressure) : List Scalar :=
  [.u8 (tierToU8 tier), .f32 cpuPercent, .u8 (thermalToU8 thermal)]

/-- The values that `encode_budget` pushes. -/
def encodeBudget (budgets : StreamBudgets) (rttMs lossPct : ℕ) : List Scalar :=
  [.u32 budgets.audioBps, .u32 budgets.inputBps, .u32 budgets.screenCoarseBps,
    .u32 budgets.cameraBps, .u32 budgets.screenRefinementBps, .u32 budgets.xferBps, .u32 rttMs,
    .f32 lossPct]

/-- The values that `encode_gear` pushes. -/
def encodeGear (constraints : GearConstraints) : List Scalar :=
  let (camKind, svtPreset) := cameraGearToPair constraints.maxCameraGear
  [.u8 camKind, .u8 svtPreset, .bool constraints.screenRefinementAllowed,
    .u8 (thermalToU8 constraints.thermalLevel), .u8 (av1CapToU8 constraints.av1Encode)]

/-- The values that `encode_panic` pushes. -/
def encodePanic (seq : ℕ) : List Scalar := [.u32 seq]

/-- The values that `encode_elev_req` pushes. -/
def encodeElevReq (reason : EscalationReason) : List Scalar := [.u8 (reasonToU8 reason)]

/-- The values that `encode_elev_resp` pushes. -/
def encodeElevResp (reason : EscalationReason) (outcome : ElevationOutcome) : List Scalar :=
  [.u8 (reasonToU8 reason), .u8 (outcomeToU8 outcome)]

namespace IpcEvent

/-- The kind byte of an event. -/
def kind : IpcEvent → UInt8
  | tierUpdate .. => kindTier
  | streamBudget .. => kindBudget
  | gearUpdate _ => kindGear
  | elevationRequested _ => kindElevReq
  | elevationResponse .. => kindElevResp
  | panicFired _ => kindPanic

/-- The values in the table of an event. -/
def fields : IpcEvent → List Scalar
  | tierUpdate tier cpuPercent thermal => encodeTier tier cpuPercent thermal
  | streamBudget budgets rttMs lossPct => encodeBudget budgets rttMs lossPct
  | gearUpdate constraints => encodeGear constraints
  | elevationRequested reason => encodeElevReq reason
  | elevationResponse reason outcome => encodeElevResp reason outcome
  | panicFired seq => encodePanic seq

end IpcEvent

/-- A FlatBuffer builder: the finished data of a table, from the slots pushed to it. -/
abbrev TableBuilder := List (ℕ × List UInt8) → List UInt8

/-- The body of a frame: the kind and the table. -/
def eventBody (fbb : TableBuilder) (event : IpcEvent) : List UInt8 :=
  event.kind :: fbb (pushSlots 0 event.fields)

/-- `encode_event`. -/
def encodeEvent (fbb : TableBuilder) (event : IpcEvent) : List UInt8 :=
  leBytes 4 (eventBody fbb event).length ++ eventBody fbb event

/-! ## The layout of a table -/

/-- The entry at a place of the vtable. -/
def vtableEntry (buf : List UInt8) (place : ℕ) : ℕ :=
  ofLE ((buf.drop (vtableOffset buf + place)).take 2)

/-- A buffer is laid out as a table with given slots. A FlatBuffer is smaller than 2 GiB; its root
table and the vtable lie inside it; the vtable has an entry for each slot, which leads to the bytes
pushed there, and none or a zero for the others. -/
structure HasTable (buf : List UInt8) (slots : List (ℕ × List UInt8)) : Prop where
  length_lt : buf.length < 2 ^ 31
  length_ge : 8 ≤ buf.length
  root_le : rootOffset buf + 4 ≤ buf.length
  size_ge : 4 ≤ vtableSize buf (vtableOffset buf)
  vtable_le : vtableOffset buf + vtableSize buf (vtableOffset buf) ≤ buf.length
  pushed : ∀ s ∈ slots, s.1 + 2 ≤ vtableSize buf (vtableOffset buf) ∧ vtableEntry buf s.1 ≠ 0 ∧
    rootOffset buf + vtableEntry buf s.1 + s.2.length ≤ buf.length ∧
    (buf.drop (rootOffset buf + vtableEntry buf s.1)).take s.2.length = s.2
  absent : ∀ n, (∀ s ∈ slots, s.1 ≠ voff n) →
    voff n + 2 ≤ vtableSize buf (vtableOffset buf) → vtableEntry buf (voff n) = 0

/-- What is pushed comes from a field that is not the default. -/
theorem mem_pushSlots {xs : List Scalar} {k : ℕ} {s : ℕ × List UInt8} :
    s ∈ pushSlots k xs ↔
      ∃ i x, xs[i]? = some x ∧ x.isDefault = false ∧ s = (voff (k + i), x.bytes) := by
  -- By induction on the fields: one with its default value is not pushed.
  induction xs generalizing k with
  | nil => simp [pushSlots]
  | cons y ys ih =>
    rw [pushSlots, List.mem_append, ih]
    constructor
    · rintro (h | ⟨i, x, hx, hdef, rfl⟩)
      · cases hy : y.isDefault with
        | true => simp [hy] at h
        | false =>
          rw [hy, if_neg Bool.false_ne_true, List.mem_singleton] at h
          exact ⟨0, y, rfl, hy, h⟩
      · exact ⟨i + 1, x, hx, hdef, by rw [Nat.add_right_comm, Nat.add_assoc]⟩
    · rintro ⟨i, x, hx, hdef, rfl⟩
      cases i with
      | zero =>
        obtain rfl := Option.some.inj hx
        left
        simp [hdef]
      | succ i => exact .inr ⟨i, x, hx, hdef, by rw [Nat.add_right_comm, Nat.add_assoc]⟩

namespace HasTable

variable {buf : List UInt8} {xs : List Scalar} {slots : List (ℕ × List UInt8)}

/-- The table of a laid out buffer. -/
abbrev table (buf : List UInt8) : FbTable := ⟨buf, rootOffset buf, vtableOffset buf⟩

/-- Such a table is valid. -/
theorem valid (h : HasTable buf slots) : (table buf).Valid where
  length_lt := h.length_lt.trans (by decide)
  obj_le := h.root_le
  vtab_le := (Nat.add_le_add_left h.size_ge _).trans h.vtable_le

/-- The table is found. -/
theorem fromBytes_eq (h : HasTable buf slots) : FbTable.fromBytes buf = .ok (some (table buf)) := by
  obtain ⟨hlt, hge, hroot, hsize, hvtable, -, -⟩ := h
  rw [FbTable.fromBytes_eq, if_neg (by omega), if_neg (by omega), if_neg (by omega)]

/-- The entry of a field can be read when the vtable has it. -/
theorem slice_entry (h : HasTable buf slots) {n : ℕ}
    (hfits : voff n + 2 ≤ vtableSize buf (vtableOffset buf)) :
    slice (table buf).buf ((table buf).vtab + voff n) ((table buf).vtab + voff n + 2) =
      .ok ((buf.drop (vtableOffset buf + voff n)).take 2) := by
  have hvtable := h.vtable_le
  show slice buf (vtableOffset buf + voff n) (vtableOffset buf + voff n + 2) = _
  rw [slice_of_le (by omega) (by omega), Nat.add_sub_cancel_left]

/-- A field that was pushed is found with its bytes. -/
theorem fieldPos_pushed (h : HasTable buf slots) {n : ℕ} {bytes : List UInt8}
    (hs : (voff n, bytes) ∈ slots) :
    ∃ p, (table buf).fieldPos n = .ok (some p) ∧ p + bytes.length ≤ buf.length ∧
      (buf.drop p).take bytes.length = bytes := by
  obtain ⟨hfits, hne, hle, hbytes⟩ := h.pushed _ hs
  have hn : 4 + n * 2 = voff n := by unfold voff; omega
  have hslot : ¬ vtableSize (table buf).buf (table buf).vtab < voff n + 2 := Nat.not_lt.mpr hfits
  -- The entry of the field points into the table, and the sum does not overflow.
  have hadd : addUsize (table buf).obj (vtableEntry buf (voff n)) =
      .ok (rootOffset buf + vtableEntry buf (voff n)) := by
    have hlen := h.length_lt
    dsimp only at hle
    show addUsize (rootOffset buf) _ = _
    exact addUsize_of_lt (by omega)
  refine ⟨_, ?_, hle, hbytes⟩
  rw [FbTable.fieldPos_eq h.valid, hn, if_neg hslot, h.slice_entry hfits, ok_bind]
  show (if vtableEntry buf (voff n) = 0 then _ else _) = _
  rw [if_neg hne]
  show (addUsize (table buf).obj (vtableEntry buf (voff n)) >>= _) = _
  rw [hadd, ok_bind]
  rfl

/-- A field that was not pushed is not found. -/
theorem fieldPos_absent (h : HasTable buf slots) {n : ℕ} (hs : ∀ s ∈ slots, s.1 ≠ voff n) :
    (table buf).fieldPos n = .ok none := by
  have hn : 4 + n * 2 = voff n := by unfold voff; omega
  rw [FbTable.fieldPos_eq h.valid, hn]
  by_cases hslot : vtableSize (table buf).buf (table buf).vtab < voff n + 2
  · rw [if_pos hslot]
  · have hfits : voff n + 2 ≤ vtableSize buf (vtableOffset buf) := Nat.le_of_not_lt hslot
    rw [if_neg hslot, h.slice_entry hfits, ok_bind]
    show (if vtableEntry buf (voff n) = 0 then _ else _) = _
    rw [if_pos (h.absent n hs hfits)]
    rfl

/-- Of the fields of a table, no other is pushed to the entry of a default field. -/
theorem ne_voff_of_isDefault {n : ℕ} {x : Scalar} (hx : xs[n]? = some x) (hdef : x.isDefault) :
    ∀ s ∈ pushSlots 0 xs, s.1 ≠ voff n := by
  intro s hs
  obtain ⟨i, y, hy, hyd, rfl⟩ := mem_pushSlots.mp hs
  intro heq
  have hi : i = n := by
    unfold voff at heq
    omega
  subst hi
  rw [hx] at hy
  obtain rfl := Option.some.inj hy
  rw [hdef] at hyd
  cases hyd

variable (h : HasTable buf (pushSlots 0 xs)) {n : ℕ}
include h

/-- A field is left out when it has its default, and is found with its bytes otherwise. -/
theorem fieldPos_field {x : Scalar} (hx : xs[n]? = some x) :
    (x.isDefault ∧ (table buf).fieldPos n = .ok none) ∨
      ∃ p, (table buf).fieldPos n = .ok (some p) ∧ p + x.bytes.length ≤ buf.length ∧
        (buf.drop p).take x.bytes.length = x.bytes := by
  cases hdef : x.isDefault with
  | true => exact .inl ⟨rfl, h.fieldPos_absent (ne_voff_of_isDefault hx hdef)⟩
  | false =>
    refine .inr (h.fieldPos_pushed (mem_pushSlots.mpr ⟨n, x, hx, hdef, ?_⟩))
    rw [Nat.zero_add]

/-- A field of one byte reads as its byte, also when it is the default. -/
theorem u8At_eq {x : Scalar} (hx : xs[n]? = some x) {b : UInt8} (hb : x.bytes = [b])
    (hdef : x.isDefault → b = 0) : (table buf).u8At n = .ok b := by
  rcases h.fieldPos_field hx with ⟨hd, hpos⟩ | ⟨p, hpos, hle, hbytes⟩
  · rw [FbTable.u8At, hpos, hdef hd]
    rfl
  · rw [hb] at hle hbytes
    have hp : p < buf.length := hle
    have hget : buf[p]? = some b := by
      have hhead := congrArg List.head? hbytes
      rwa [List.head?_take, if_neg (by simp), List.head?_drop] at hhead
    rw [FbTable.u8At, hpos, ok_bind]
    dsimp only
    rw [if_pos hp, index, hget]

/-- A field of four bytes reads as its number, also when it is the default. -/
theorem u32At_eq {x : Scalar} (hx : xs[n]? = some x) {v : ℕ} (hv : v < 2 ^ 32)
    (hb : x.isDefault = false → x.bytes = leBytes 4 v) (hdef : x.isDefault → v = 0) :
    (table buf).u32At n = .ok v := by
  cases hd : x.isDefault with
  | true =>
    have hpos := h.fieldPos_absent (ne_voff_of_isDefault hx hd)
    rw [FbTable.u32At, hpos, hdef hd]
    rfl
  | false =>
    have hmem : (voff n, x.bytes) ∈ pushSlots 0 xs :=
      mem_pushSlots.mpr ⟨n, x, hx, hd, by rw [Nat.zero_add]⟩
    obtain ⟨p, hpos, hle, hbytes⟩ := h.fieldPos_pushed hmem
    have hlen := h.length_lt
    rw [hb hd, length_leBytes] at hle hbytes
    rw [FbTable.u32At, hpos, ok_bind]
    dsimp only
    rw [addUsize_of_lt (by omega), ok_bind, if_pos hle, ok_bind, slice_of_le (by omega) hle,
      ok_bind, Nat.add_sub_cancel_left, hbytes, ofLE_leBytes_four, asU32_of_lt hv]
    rfl

end HasTable

/-! ## What is received -/

/-- The byte of a tier is read as the tier. -/
@[simp]
theorem tierFromU8_tierToU8 (tier : TierState) : tierFromU8 (tierToU8 tier) = tier := by
  cases tier <;> rfl

/-- That of a thermal level is read as the level. -/
@[simp]
theorem thermalFromU8_thermalToU8 (level : ThermalPressure) :
    thermalFromU8 (thermalToU8 level) = level := by
  cases level <;> rfl

/-- The two bytes of a camera gear are read as the gear. -/
@[simp]
theorem cameraGearFromPair_cameraGearToPair (gear : CameraGear) :
    cameraGearFromPair (cameraGearToPair gear).1 (cameraGearToPair gear).2 = gear := by
  cases gear <;> rfl

/-- The byte of an encoder capability is read as the capability. -/
@[simp]
theorem av1CapFromU8_av1CapToU8 (cap : Av1EncodeCapability) :
    av1CapFromU8 (av1CapToU8 cap) = cap := by
  cases cap <;> rfl

/-- That of a reason is read as the reason. -/
@[simp]
theorem reasonFromU8_reasonToU8 (reason : EscalationReason) :
    reasonFromU8 (reasonToU8 reason) = reason := by
  cases reason <;> rfl

/-- That of an outcome is read as the outcome. -/
@[simp]
theorem outcomeFromU8_outcomeToU8 (outcome : ElevationOutcome) :
    outcomeFromU8 (outcomeToU8 outcome) = outcome := by
  cases outcome <;> rfl

/-- A floating-point field as it is received: the negative zero is the default, and comes back as
the positive one. -/
def receivedF32 (bits : ℕ) : ℕ := if bits = 2 ^ 31 then 0 else bits

namespace IpcEvent

/-- The numbers of an event are 32-bit words. -/
def Fits : IpcEvent → Prop
  | tierUpdate _ cpuPercent _ => cpuPercent < 2 ^ 32
  | streamBudget b rttMs lossPct => b.audioBps < 2 ^ 32 ∧ b.inputBps < 2 ^ 32 ∧
    b.screenCoarseBps < 2 ^ 32 ∧ b.cameraBps < 2 ^ 32 ∧ b.screenRefinementBps < 2 ^ 32 ∧
    b.xferBps < 2 ^ 32 ∧ rttMs < 2 ^ 32 ∧ lossPct < 2 ^ 32
  | gearUpdate _ => True
  | elevationRequested _ => True
  | elevationResponse _ _ => True
  | panicFired seq => seq < 2 ^ 32

/-- An event as the peer receives it. The resolution is computed again from the budget, and what is
derived from the gear constraints is left to the peer; the audio floor is a constant. -/
def received : IpcEvent → IpcEvent
  | tierUpdate tier cpuPercent thermal => tierUpdate tier (receivedF32 cpuPercent) thermal
  | streamBudget budgets rttMs lossPct =>
    streamBudget
      { budgets with
        displayResolution := selectResolution budgets.screenCoarseBps
        perFrameByteCap := 0
        roiDeltaQp := 0 }
      rttMs (receivedF32 lossPct)
  | gearUpdate constraints => gearUpdate { constraints with audioFloorBps := audioFloorBps }
  | elevationRequested reason => elevationRequested reason
  | elevationResponse reason outcome => elevationResponse reason outcome
  | panicFired seq => panicFired seq

end IpcEvent

namespace HasTable

variable {buf : List UInt8} {xs : List Scalar} (h : HasTable buf (pushSlots 0 xs)) {n : ℕ}
include h

/-- What each kind of field reads as. -/
theorem u8At_u8 {b : UInt8} (hx : xs[n]? = some (.u8 b)) : (table buf).u8At n = .ok b :=
  h.u8At_eq hx rfl (by simp [Scalar.isDefault])

/-- A `bool` is read as it was written. -/
theorem boolAt_bool {b : Bool} (hx : xs[n]? = some (.bool b)) : (table buf).boolAt n = .ok b := by
  rw [FbTable.boolAt, h.u8At_eq hx rfl (by cases b <;> decide), ok_bind]
  cases b <;> rfl

/-- So is a `u32`. -/
theorem u32At_u32 {v : ℕ} (hx : xs[n]? = some (.u32 v)) (hv : v < 2 ^ 32) :
    (table buf).u32At n = .ok v :=
  h.u32At_eq hx hv (fun _ => rfl) (by simp [Scalar.isDefault])

/-- An `f32` is read with the bits that a message keeps of it. -/
theorem f32At_f32 {bits : ℕ} (hx : xs[n]? = some (.f32 bits)) (hbits : bits < 2 ^ 32) :
    (table buf).f32At n = .ok (receivedF32 bits) := by
  unfold receivedF32
  by_cases hneg : bits = 2 ^ 31
  · rw [if_pos hneg]
    refine h.u32At_eq hx (by decide) (fun hd => ?_) fun _ => rfl
    rw [hneg] at hd
    cases hd
  · rw [if_neg hneg]
    refine h.u32At_eq hx hbits (fun _ => rfl) fun hd => ?_
    simp only [Scalar.isDefault, Bool.or_eq_true, beq_iff_eq] at hd
    exact hd.resolve_right hneg

end HasTable

/-- The builder lays out the table of an event as documented. -/
def LaysOut (fbb : TableBuilder) (event : IpcEvent) : Prop :=
  HasTable (fbb (pushSlots 0 event.fields)) (pushSlots 0 event.fields)

variable {fbb : TableBuilder} {event : IpcEvent}

/-- The event is read back from its table. -/
theorem decodeFb_table (h : LaysOut fbb event) (hfits : event.Fits) :
    decodeFb event.kind (fbb (pushSlots 0 event.fields)) = .ok (some event.received) := by
  unfold decodeFb
  rw [h.fromBytes_eq, ok_bind]
  dsimp only
  -- Event by event, each field is read where it was laid out.
  cases event with
  | tierUpdate tier cpuPercent thermal =>
    have h0 := h.u8At_u8 (n := 0) rfl
    have h1 := h.f32At_f32 (n := 1) rfl hfits
    have h2 := h.u8At_u8 (n := 2) rfl
    show (HasTable.table _).event kindTier = _
    rw [FbTable.event, if_pos rfl, h0, ok_bind, h1, ok_bind, h2, ok_bind, tierFromU8_tierToU8,
      thermalFromU8_thermalToU8]
    rfl
  | streamBudget budgets rttMs lossPct =>
    obtain ⟨hb0, hb1, hb2, hb3, hb4, hb5, hrtt, hloss⟩ := hfits
    have h0 := h.u32At_u32 (n := 0) rfl hb0
    have h1 := h.u32At_u32 (n := 1) rfl hb1
    have h2 := h.u32At_u32 (n := 2) rfl hb2
    have h3 := h.u32At_u32 (n := 3) rfl hb3
    have h4 := h.u32At_u32 (n := 4) rfl hb4
    have h5 := h.u32At_u32 (n := 5) rfl hb5
    have h6 := h.u32At_u32 (n := 6) rfl hrtt
    have h7 := h.f32At_f32 (n := 7) rfl hloss
    show (HasTable.table _).event kindBudget = _
    rw [FbTable.event, if_neg (by decide), if_pos rfl, h2, ok_bind, h0, ok_bind, h1, ok_bind, h3,
      ok_bind, h4, ok_bind, h5, ok_bind, h6, ok_bind, h7, ok_bind]
    rfl
  | gearUpdate constraints =>
    have h0 := h.u8At_u8 (n := 0) (b := (cameraGearToPair constraints.maxCameraGear).1) rfl
    have h1 := h.u8At_u8 (n := 1) (b := (cameraGearToPair constraints.maxCameraGear).2) rfl
    have h2 := h.boolAt_bool (n := 2) rfl
    have h3 := h.u8At_u8 (n := 3) rfl
    have h4 := h.u8At_u8 (n := 4) rfl
    show (HasTable.table _).event kindGear = _
    rw [FbTable.event, if_neg (by decide), if_neg (by decide), if_pos rfl, h0, ok_bind, h1, ok_bind,
      h2, ok_bind, h3, ok_bind, h4, ok_bind, cameraGearFromPair_cameraGearToPair,
      thermalFromU8_thermalToU8, av1CapFromU8_av1CapToU8]
    rfl
  | elevationRequested reason =>
    have h0 := h.u8At_u8 (n := 0) rfl
    show (HasTable.table _).event kindElevReq = _
    rw [FbTable.event, if_neg (by decide), if_neg (by decide), if_neg (by decide), if_pos rfl, h0,
      ok_bind, reasonFromU8_reasonToU8]
    rfl
  | elevationResponse reason outcome =>
    have h0 := h.u8At_u8 (n := 0) rfl
    have h1 := h.u8At_u8 (n := 1) rfl
    show (HasTable.table _).event kindElevResp = _
    rw [FbTable.event, if_neg (by decide), if_neg (by decide), if_neg (by decide),
      if_neg (by decide), if_pos rfl, h0, ok_bind, h1, ok_bind, reasonFromU8_reasonToU8,
      outcomeFromU8_outcomeToU8]
    rfl
  | panicFired seq =>
    have h0 := h.u32At_u32 (n := 0) rfl hfits
    show (HasTable.table _).event kindPanic = _
    rw [FbTable.event, if_neg (by decide), if_neg (by decide), if_neg (by decide),
      if_neg (by decide), if_neg (by decide), if_pos rfl, h0, ok_bind]
    rfl

/-- A finished table is far below the range of the length field. -/
theorem length_eventBody_lt (h : LaysOut fbb event) : (eventBody fbb event).length < 2 ^ 32 := by
  have hlt := h.length_lt
  rw [eventBody, List.length_cons]
  omega

/-- The slots of two rows of fields follow each other. -/
theorem pushSlots_append (k : ℕ) (xs ys : List Scalar) :
    pushSlots k (xs ++ ys) = pushSlots k xs ++ pushSlots (k + xs.length) ys := by
  induction xs generalizing k with
  | nil => rfl
  | cons x xs ih =>
    rw [List.cons_append, pushSlots, pushSlots, ih, List.append_assoc, List.length_cons,
      Nat.add_right_comm k 1, Nat.add_assoc k]

/-- What is not received is not on the wire. -/
theorem fields_received (event : IpcEvent) :
    pushSlots 0 event.received.fields = pushSlots 0 event.fields := by
  -- A negative zero is left out as the default, and comes back as zero.
  have hf32 : ∀ {n bits xs}, pushSlots n (.f32 (receivedF32 bits) :: xs) =
      pushSlots n (.f32 bits :: xs) := by
    intro n bits xs
    unfold receivedF32
    by_cases hneg : bits = 2 ^ 31
    · rw [if_pos hneg, hneg]
      rfl
    · rw [if_neg hneg]
  cases event with
  | tierUpdate tier cpuPercent thermal =>
    exact congrArg (_ ++ ·) hf32
  | streamBudget budgets rttMs lossPct =>
    let words : List Scalar := [.u32 budgets.audioBps, .u32 budgets.inputBps,
      .u32 budgets.screenCoarseBps, .u32 budgets.cameraBps, .u32 budgets.screenRefinementBps,
      .u32 budgets.xferBps, .u32 rttMs]
    show pushSlots 0 (words ++ [.f32 (receivedF32 lossPct)]) = pushSlots 0 (words ++ [.f32 lossPct])
    rw [pushSlots_append, pushSlots_append, hf32]
  | gearUpdate constraints => rfl
  | elevationRequested reason => rfl
  | elevationResponse reason outcome => rfl
  | panicFired seq => rfl

/-- What is received of an event is encoded as the event is. -/
theorem encodeEvent_received (fbb : TableBuilder) (event : IpcEvent) :
    encodeEvent fbb event.received = encodeEvent fbb event := by
  have hkind : event.received.kind = event.kind := by cases event <;> rfl
  have hbody : eventBody fbb event.received = eventBody fbb event := by
    rw [eventBody, fields_received, hkind]
    rfl
  rw [encodeEvent, hbody]
  rfl

/-! ## Streams -/

/-- `read_frame` on the bytes that are still to come: the body of the first frame, and the rest.
`none` is an error, of a stream that ends before the frame does or of a frame without a body. -/
def readFrame (stream : List UInt8) : Option (ByteSlice × List UInt8) := do
  let (lenBuf, rest) ← readExact 4 stream
  if ofLE lenBuf.val = 0 then none
  let (body, rest) ← readExact (ofLE lenBuf.val) rest
  some (⟨body.val, by
    have hlt := ofLE_lt lenBuf.val
    rw [lenBuf.length_val] at hlt
    rw [body.length_val]
    omega⟩, rest)

/-- A frame is taken from the stream. -/
theorem length_of_readFrame {stream rest : List UInt8} {body : ByteSlice}
    (h : readFrame stream = some (body, rest)) : rest.length < stream.length := by
  unfold readFrame at h
  obtain ⟨⟨lenBuf, rest₁⟩, hlen, h⟩ := Option.bind_eq_some_iff.mp h
  dsimp only at h
  split at h
  · cases h
  · obtain ⟨⟨bytes, rest₂⟩, hbody, h⟩ := Option.bind_eq_some_iff.mp h
    obtain ⟨-, rfl⟩ := Prod.mk.inj (Option.some.inj h)
    rw [readExact_eq_some hlen, readExact_eq_some hbody, List.length_append, List.length_append,
      lenBuf.length_val]
    show rest₂.length < _
    omega

/-- `read_loop` until the stream breaks off: the events that are passed on, and the crash that ends
the loop, if one does. A frame that does not decode is skipped. -/
def readLoop (stream : List UInt8) : List IpcEvent × Option Crash :=
  match _h : readFrame stream with
  | none => ([], none)
  | some (body, rest) =>
    match decodeFrame body with
    | .error crash => ([], some crash)
    | .ok event =>
      let (events, crash) := readLoop rest
      (event.toList ++ events, crash)
termination_by stream.length
decreasing_by exact length_of_readFrame _h

/-- The end of the stream ends the loop. -/
theorem readLoop_of_none {stream : List UInt8} (h : readFrame stream = none) :
    readLoop stream = ([], none) := by
  rw [readLoop]
  split
  · rfl
  · rename_i hsome
    rw [h] at hsome
    cases hsome

/-- A frame that is decoded is passed on before the rest of the stream is read. -/
theorem readLoop_of_some {stream rest : List UInt8} {body : ByteSlice} {event : IpcEvent}
    (h : readFrame stream = some (body, rest)) (hevent : decodeFrame body = .ok (some event)) :
    readLoop stream = (event :: (readLoop rest).1, (readLoop rest).2) := by
  rw [readLoop]
  split
  · rename_i hnone
    rw [h] at hnone
    cases hnone
  · rename_i body' rest' hsome
    rw [h] at hsome
    obtain ⟨rfl, rfl⟩ := Prod.mk.inj (Option.some.inj hsome)
    rw [hevent]
    rfl

/-- How many of the frames of the given lengths are complete in the first bytes of their stream. -/
def completeFrames : List ℕ → ℕ → ℕ
  | [], _ => 0
  | len :: lens, bytes => if len ≤ bytes then 1 + completeFrames lens (bytes - len) else 0

/-- A frame is read back, with the rest of the stream. -/
theorem readFrame_frame {body : ByteSlice} (hne : body.bytes ≠ [])
    (hlen : body.bytes.length < 2 ^ 32) (rest : List UInt8) :
    readFrame (leBytes 4 body.bytes.length ++ body.bytes ++ rest) = some (body, rest) := by
  have hword : ofLE (leBytes 4 body.bytes.length) = body.bytes.length := by
    rw [ofLE_leBytes_four, asU32_of_lt hlen]
  have hread := readExact_append ⟨_, length_leBytes 4 body.bytes.length⟩ (body.bytes ++ rest)
  have hbody := readExact_append ⟨body.bytes, hword.symm⟩ rest
  have hzero : ofLE (leBytes 4 body.bytes.length) ≠ 0 := by
    rw [hword]
    simpa using hne
  unfold readFrame
  dsimp only at hread hbody
  rw [List.append_assoc, hread, Option.bind_eq_bind, Option.bind_some]
  dsimp only
  rw [if_neg hzero, hbody]
  rfl

/-- A frame that breaks off is an error. -/
theorem readFrame_cut {body : List UInt8} (hlen : body.length < 2 ^ 32) {n : ℕ}
    (hn : n < 4 + body.length) :
    readFrame ((leBytes 4 body.length ++ body).take n) = none := by
  have hword : ofLE (leBytes 4 body.length) = body.length := by
    rw [ofLE_leBytes_four, asU32_of_lt hlen]
  unfold readFrame
  -- Not even the length is there.
  by_cases h4 : n < 4
  · have hshort : ((leBytes 4 body.length ++ body).take n).length < 4 :=
      (List.length_take_le _ _).trans_lt h4
    rw [readExact_eq_none hshort]
    rfl
  · -- The length is there, but not all of the body.
    have hread := readExact_append ⟨_, length_leBytes 4 body.length⟩ (body.take (n - 4))
    have hshort : (body.take (n - 4)).length < ofLE (leBytes 4 body.length) := by
      rw [hword, List.length_take]
      omega
    have htake : (leBytes 4 body.length ++ body).take n =
        leBytes 4 body.length ++ body.take (n - 4) := by
      rw [List.take_append, length_leBytes, List.take_of_length_le]
      rw [length_leBytes]
      omega
    dsimp only at hread
    rw [htake, hread, Option.bind_eq_bind, Option.bind_some]
    dsimp only
    split
    · rfl
    · rw [readExact_eq_none hshort]
      rfl

/-- Each event fits and is laid out. -/
def Sendable (fbb : TableBuilder) (event : IpcEvent) : Prop := event.Fits ∧ LaysOut fbb event

/-- The body of a frame that is sent. -/
def frameBody (h : LaysOut fbb event) : ByteSlice :=
  ⟨eventBody fbb event, (length_eventBody_lt h).trans (by decide)⟩

/-- A frame that is sent is received as the event that `received` says. -/
theorem decodeFrame_eventBody (h : LaysOut fbb event) (hfits : event.Fits) :
    decodeFrame (frameBody h) = .ok (some event.received) := decodeFb_table h hfits

/-- A frame at the head of a stream. -/
theorem readLoop_encodeEvent (h : Sendable fbb event) (rest : List UInt8) :
    readLoop (encodeEvent fbb event ++ rest) =
      (event.received :: (readLoop rest).1, (readLoop rest).2) := by
  obtain ⟨hfits, hlays⟩ := h
  have hread : readFrame (encodeEvent fbb event ++ rest) = some (frameBody hlays, rest) :=
    @readFrame_frame (frameBody hlays) (List.cons_ne_nil _ _) (length_eventBody_lt hlays) rest
  exact readLoop_of_some hread (decodeFrame_eventBody hlays hfits)

/-- A frame is its length and its body. -/
theorem length_encodeEvent (fbb : TableBuilder) (event : IpcEvent) :
    (encodeEvent fbb event).length = 4 + (eventBody fbb event).length := by
  rw [encodeEvent, List.length_append, length_leBytes]

/-- A stream of frames that breaks off after any number of bytes: the loop passes on, in order, what
is received of the events whose frames are complete, and ends without a crash. -/
theorem readLoop_take (fbb : TableBuilder) (events : List IpcEvent)
    (h : ∀ event ∈ events, Sendable fbb event) (bytes : ℕ) :
    readLoop ((events.flatMap (encodeEvent fbb)).take bytes) =
      ((events.take (completeFrames (events.map fun e => (encodeEvent fbb e).length) bytes)).map
        IpcEvent.received, none) := by
  -- By induction on the events: a frame that is cut ends the loop.
  induction events generalizing bytes with
  | nil =>
    rw [List.flatMap_nil, List.take_nil, List.take_nil]
    exact readLoop_of_none rfl
  | cons event events ih =>
    obtain ⟨hevent, hevents⟩ := List.forall_mem_cons.mp h
    rw [List.flatMap_cons, List.map_cons, completeFrames]
    by_cases hcomplete : (encodeEvent fbb event).length ≤ bytes
    · rw [if_pos hcomplete, List.take_append, List.take_of_length_le hcomplete,
        readLoop_encodeEvent hevent, ih hevents, Nat.add_comm 1, List.take_succ_cons, List.map_cons]
    · have hcut : bytes < 4 + (eventBody fbb event).length := by
        rw [← length_encodeEvent]
        omega
      rw [if_neg hcomplete, List.take_append_of_le_length (by omega)]
      exact readLoop_of_none (readFrame_cut (length_eventBody_lt hevent.2) hcut)

/-- A frame alone gives what is received of its event, and two events have the same frame exactly
when they are received as the same event: nothing else is lost on the wire. -/
theorem encodeEvent_received_iff (fbb : TableBuilder) (event event' : IpcEvent)
    (h : Sendable fbb event) (h' : Sendable fbb event') :
    readLoop (encodeEvent fbb event) = ([event.received], none) ∧
      (encodeEvent fbb event = encodeEvent fbb event' ↔ event.received = event'.received) := by
  have hread : ∀ {e}, Sendable fbb e → readLoop (encodeEvent fbb e) = ([e.received], none) := by
    intro e he
    have hloop := readLoop_encodeEvent he []
    rwa [List.append_nil, @readLoop_of_none [] rfl] at hloop
  refine ⟨hread h, ?_, ?_⟩
  · intro hframe
    have hevents := congrArg readLoop hframe
    rw [hread h, hread h'] at hevents
    exact (List.cons.inj (Prod.mk.inj hevents).1).1
  · intro hreceived
    rw [← encodeEvent_received, hreceived, encodeEvent_received]

/-- The table with the byte 2 in its first slot and no other field. -/
def comfortableTable : List UInt8 :=
  [0x0c, 0, 0, 0, 0, 0, 6, 0, 8, 0, 7, 0, 6, 0, 0, 0, 0, 0, 0, 2]

/-- The table has the byte of the tier as its only field. -/
theorem hasTable_comfortable : HasTable comfortableTable [(4, [2])] where
  length_lt := by decide
  length_ge := by decide
  root_le := by decide
  size_ge := by decide
  vtable_le := by decide
  pushed := by decide
  absent := by
    intro n hn hfits
    have hsize : voff n + 2 ≤ 6 := hfits
    have hzero : n = 0 := by
      unfold voff at hsize
      omega
    exact absurd (by rw [hzero]; rfl) (hn _ (List.mem_singleton_self _))

/-- A builder that makes this table has laid out the tier updates whose load is a zero. -/
theorem sendable_comfortable {bits : ℕ} (hbits : bits < 2 ^ 32)
    (hzero : (Scalar.f32 bits).isDefault) :
    Sendable (fun _ => comfortableTable) (.tierUpdate .comfortable bits .nominal) := by
  have hslots : pushSlots 0 (encodeTier .comfortable bits .nominal) = [(4, [2])] := by
    simp only [encodeTier, pushSlots, hzero]
    rfl
  refine ⟨hbits, ?_⟩
  show HasTable _ (pushSlots 0 (encodeTier .comfortable bits .nominal))
  rw [hslots]
  exact hasTable_comfortable

/-- A tier update with a load of minus zero has the frame of one with a load of zero. -/
theorem encodeEvent_negZero :
    let fbb : TableBuilder := fun _ => comfortableTable
    readLoop (encodeEvent fbb (.tierUpdate .comfortable (2 ^ 31) .nominal)) =
        ([.tierUpdate .comfortable 0 .nominal], none) ∧
      encodeEvent fbb (.tierUpdate .comfortable (2 ^ 31) .nominal) =
        encodeEvent fbb (.tierUpdate .comfortable 0 .nominal) := by
  intro fbb
  have hround := encodeEvent_received_iff fbb (.tierUpdate .comfortable (2 ^ 31) .nominal)
    (.tierUpdate .comfortable 0 .nominal) (sendable_comfortable (by decide) rfl)
    (sendable_comfortable (by decide) rfl)
  exact ⟨hround.1, hround.2.mpr rfl⟩

/-- Of two frames and a half, two events are received. -/
theorem readLoop_twoAndHalf :
    let fbb : TableBuilder := fun _ => comfortableTable
    let event : IpcEvent := .tierUpdate .comfortable 0 .nominal
    readLoop (([event, event, event].flatMap (encodeEvent fbb)).take 60) =
      ([event, event], none) := by
  intro fbb event
  refine readLoop_take fbb [event, event, event] ?_ 60
  rintro e he
  obtain rfl : e = event := by simpa using he
  exact sendable_comfortable (by decide) rfl

end LowBand.Platform
