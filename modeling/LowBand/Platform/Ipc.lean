import LowBand.Lib.Bytes
import LowBand.Lib.Result
import LowBand.Platform.GearPolicy
import LowBand.Platform.Tier

/-!
# Frames of the UI shell

`decode_frame` and its FlatBuffer reader (`core/platform/src/ipc.rs`). A frame is a kind byte and a
table. The table is found through three offsets that the peer chooses: the root offset, the signed
offset back to the vtable, and the offsets of the fields in the vtable.

A slice, an index or a `usize` addition that is out of range is a `Crash`. The reader checks the
root and the vtable header against the buffer, but it adds before it compares, and a vtable just
before the start of the buffer has a position near `2 ^ 64` (`fromBytes_eq`). Then it takes the size
of the vtable from the bytes and reads a slot below that size without a check against the buffer
(`fieldPos_of_not_inside`). All other steps are in range for every frame, so
`decodeFrame_returns_iff` names exactly the frames that are decoded or rejected without a crash.
-/

namespace LowBand.Platform

open Lib

/-- How a step goes wrong. -/
inductive Crash
  /-- A slice or an index is out of range. -/
  | outOfRange
  /-- An addition overflows. -/
  | overflow
  deriving DecidableEq, Repr

/-- A byte slice. No allocation is larger than `isize::MAX` bytes. -/
structure ByteSlice where
  bytes : List UInt8
  length_lt : bytes.length < 2 ^ 63

/-- `a + b` on `usize`. -/
def addUsize (a b : ℕ) : Except Crash ℕ := if a + b < 2 ^ 64 then .ok (a + b) else .error .overflow

/-- `buf[a..b]`. -/
def slice (buf : List UInt8) (a b : ℕ) : Except Crash (List UInt8) :=
  if a ≤ b ∧ b ≤ buf.length then .ok ((buf.drop a).take (b - a)) else .error .outOfRange

/-- `buf[i]`. -/
def index (buf : List UInt8) (i : ℕ) : Except Crash UInt8 :=
  match buf[i]? with
  | some b => .ok b
  | none => .error .outOfRange

/-- A little-endian word as a signed one, `i32::from_le_bytes`. -/
def ofLEI32 (l : List UInt8) : ℤ := if ofLE l < 2 ^ 31 then ofLE l else (ofLE l : ℤ) - 2 ^ 32

/-! ## Events -/

/-- Why the daemon asks for more privileges. -/
inductive EscalationReason
  | screenCapture
  | inputInjection
  | serviceInstall
  | protectedWrite
  deriving DecidableEq, Repr

/-- How a request for privileges ended. -/
inductive ElevationOutcome
  | granted
  | denied
  | unavailable
  deriving DecidableEq, Repr

/-- The events between the daemon and the shells. A floating-point field is kept as its bits. -/
inductive IpcEvent
  | tierUpdate (tier : TierState) (cpuPercent : ℕ) (thermal : ThermalPressure)
  | streamBudget (budgets : StreamBudgets) (rttMs : ℕ) (lossPct : ℕ)
  | gearUpdate (constraints : GearConstraints)
  | elevationRequested (reason : EscalationReason)
  | elevationResponse (reason : EscalationReason) (outcome : ElevationOutcome)
  | panicFired (seq : ℕ)
  deriving DecidableEq, Repr

/-- `KIND_TIER`. -/
def kindTier : UInt8 := 0

/-- `KIND_BUDGET`. -/
def kindBudget : UInt8 := 1

/-- `KIND_GEAR`. -/
def kindGear : UInt8 := 2

/-- `KIND_ELEV_REQ`. -/
def kindElevReq : UInt8 := 3

/-- `KIND_ELEV_RESP`. -/
def kindElevResp : UInt8 := 4

/-- `KIND_PANIC`. -/
def kindPanic : UInt8 := 5

/-- The tier of a byte. -/
def tierFromU8 (v : UInt8) : TierState :=
  if v = 1 then .constrained else if v = 2 then .comfortable else if v = 3 then .full else .survival

/-- The thermal level of a byte. -/
def thermalFromU8 (v : UInt8) : ThermalPressure :=
  if v = 1 then .fair else if v = 2 then .serious else if v = 3 then .critical else .nominal

/-- The camera gear of a kind and a preset. -/
def cameraGearFromPair (kind preset : UInt8) : CameraGear :=
  if kind = 0 then .gearA else if kind = 1 then .gearB preset else if kind = 3 then .gearC else .off

/-- The encoder capability of a byte. -/
def av1CapFromU8 (v : UInt8) : Av1EncodeCapability := if v = 1 then .legacy else .capable

/-- The reason of a byte. -/
def reasonFromU8 (v : UInt8) : EscalationReason :=
  if v = 1 then .inputInjection
  else if v = 2 then .serviceInstall
  else if v = 3 then .protectedWrite
  else .screenCapture

/-- The outcome of a byte. -/
def outcomeFromU8 (v : UInt8) : ElevationOutcome :=
  if v = 0 then .granted else if v = 1 then .denied else .unavailable

/-! ## The table reader -/

/-- A table in a buffer: the positions of the object and of its vtable. -/
structure FbTable where
  buf : List UInt8
  obj : ℕ
  vtab : ℕ
  deriving DecidableEq, Repr

namespace FbTable

/-- Find the root table of a buffer. -/
def fromBytes (buf : List UInt8) : Except Crash (Option FbTable) := do
  if buf.length < 8 then
    return none
  let obj := ofLE (← slice buf 0 4)
  if (← addUsize obj 4) > buf.length then
    return none
  let soffset := ofLEI32 (← slice buf obj (← addUsize obj 4))
  let vtab := (((obj : ℤ) - soffset) % 2 ^ 64).toNat
  if (← addUsize vtab 4) > buf.length then
    return none
  return some ⟨buf, obj, vtab⟩

/-- The position of a field, if the vtable has it. -/
def fieldPos (t : FbTable) (idx : ℕ) : Except Crash (Option ℕ) := do
  let vtSize := ofLE (← slice t.buf t.vtab (← addUsize t.vtab 2))
  let slot := 4 + idx * 2
  if slot + 2 > vtSize then
    return none
  let start ← addUsize t.vtab slot
  let off := ofLE (← slice t.buf start (← addUsize start 2))
  if off = 0 then
    return none
  return some (← addUsize t.obj off)

/-- A byte field, zero when it is absent or outside the buffer. -/
def u8At (t : FbTable) (idx : ℕ) : Except Crash UInt8 := do
  match ← t.fieldPos idx with
  | none => return 0
  | some p => if p < t.buf.length then index t.buf p else return 0

/-- A word field, zero when it is absent or outside the buffer. -/
def u32At (t : FbTable) (idx : ℕ) : Except Crash ℕ := do
  match ← t.fieldPos idx with
  | none => return 0
  | some p =>
    if (← addUsize p 4) ≤ t.buf.length then return ofLE (← slice t.buf p (← addUsize p 4))
    else return 0

/-- A floating-point field, by its bits. -/
def f32At (t : FbTable) (idx : ℕ) : Except Crash ℕ := t.u32At idx

/-- A boolean field. -/
def boolAt (t : FbTable) (idx : ℕ) : Except Crash Bool := do
  return (← t.u8At idx) != 0

/-- The event of a kind, read from a table. -/
def event (t : FbTable) (kind : UInt8) : Except Crash (Option IpcEvent) :=
  if kind = kindTier then do
    let tier ← t.u8At 0
    let cpuPercent ← t.f32At 1
    let thermal ← t.u8At 2
    return some (.tierUpdate (tierFromU8 tier) cpuPercent (thermalFromU8 thermal))
  else if kind = kindBudget then do
    let screenCoarseBps ← t.u32At 2
    let audioBps ← t.u32At 0
    let inputBps ← t.u32At 1
    let cameraBps ← t.u32At 3
    let screenRefinementBps ← t.u32At 4
    let xferBps ← t.u32At 5
    let budgets : StreamBudgets :=
      { audioBps, inputBps, screenCoarseBps, cameraBps, screenRefinementBps, xferBps
        displayResolution := selectResolution screenCoarseBps
        perFrameByteCap := 0, roiDeltaQp := 0 }
    let rttMs ← t.u32At 6
    let lossPct ← t.f32At 7
    return some (.streamBudget budgets rttMs lossPct)
  else if kind = kindGear then do
    let camKind ← t.u8At 0
    let preset ← t.u8At 1
    let screenRefinementAllowed ← t.boolAt 2
    let thermal ← t.u8At 3
    let av1 ← t.u8At 4
    return some (.gearUpdate
      { maxCameraGear := cameraGearFromPair camKind preset
        screenRefinementAllowed
        audioFloorBps := audioFloorBps
        thermalLevel := thermalFromU8 thermal
        av1Encode := av1CapFromU8 av1 })
  else if kind = kindElevReq then do
    let reason ← t.u8At 0
    return some (.elevationRequested (reasonFromU8 reason))
  else if kind = kindElevResp then do
    let reason ← t.u8At 0
    let outcome ← t.u8At 1
    return some (.elevationResponse (reasonFromU8 reason) (outcomeFromU8 outcome))
  else if kind = kindPanic then do
    let seq ← t.u32At 0
    return some (.panicFired seq)
  else
    return none

end FbTable

/-- Decode the bytes behind the kind byte. -/
def decodeFb (kind : UInt8) (fb : List UInt8) : Except Crash (Option IpcEvent) := do
  match ← FbTable.fromBytes fb with
  | none => return none
  | some t => t.event kind

/-- Decode one frame body. -/
def decodeFrame (frameBody : ByteSlice) : Except Crash (Option IpcEvent) :=
  match frameBody.bytes with
  | [] => .ok none
  | kind :: fb => decodeFb kind fb

/-! ## Where the reader crashes -/

/-- The root offset of a buffer. -/
def rootOffset (fb : List UInt8) : ℕ := ofLE (fb.take 4)

/-- The position of the vtable as a 64-bit number: the root position less the signed offset
there. -/
def vtableOffset (fb : List UInt8) : ℕ :=
  (((rootOffset fb : ℤ) - ofLEI32 ((fb.drop (rootOffset fb)).take 4)) % 2 ^ 64).toNat

/-- The size that a vtable at `vtab` claims to have. -/
def vtableSize (fb : List UInt8) (vtab : ℕ) : ℕ := ofLE ((fb.drop vtab).take 2)

/-- The slot of a field lies inside the buffer, unless it is beyond the size that the vtable at
`vtab` claims to have. -/
def SlotInside (fb : List UInt8) (vtab idx : ℕ) : Prop :=
  4 + idx * 2 + 2 ≤ vtableSize fb vtab → vtab + (4 + idx * 2) + 2 ≤ fb.length

/-- The fields that the event of a kind has. -/
def fieldsRead (kind : UInt8) : List ℕ :=
  if kind = kindTier then [0, 1, 2]
  else if kind = kindBudget then [0, 1, 2, 3, 4, 5, 6, 7]
  else if kind = kindGear then [0, 1, 2, 3, 4]
  else if kind = kindElevReq then [0]
  else if kind = kindElevResp then [0, 1]
  else if kind = kindPanic then [0]
  else []

/-- A sum below `2 ^ 64` does not overflow. -/
theorem addUsize_of_lt {a b : ℕ} (h : a + b < 2 ^ 64) : addUsize a b = .ok (a + b) := if_pos h

/-- A slice within the buffer does not panic. -/
theorem slice_of_le {buf : List UInt8} {a b : ℕ} (hab : a ≤ b) (hb : b ≤ buf.length) :
    slice buf a b = .ok ((buf.drop a).take (b - a)) := if_pos ⟨hab, hb⟩

/-- A number read from at most `n` bytes. -/
theorem ofLE_take_lt (l : List UInt8) (n : ℕ) : ofLE (l.take n) < 256 ^ n :=
  (ofLE_lt _).trans_le (Nat.pow_le_pow_right (by decide) (List.length_take_le n l))

namespace FbTable

/-- Finding the root table. -/
theorem fromBytes_eq (buf : List UInt8) :
    fromBytes buf =
      if buf.length < 8 ∨ buf.length < rootOffset buf + 4 then .ok none
      else if 2 ^ 64 ≤ vtableOffset buf + 4 then .error .overflow
      else if buf.length < vtableOffset buf + 4 then .ok none
      else .ok (some ⟨buf, rootOffset buf, vtableOffset buf⟩) := by
  unfold fromBytes
  -- The reads in the order of the source, each after the check that lets it in.
  by_cases h8 : buf.length < 8
  · rw [if_pos h8, if_pos (Or.inl h8)]
    rfl
  · have hroot : rootOffset buf < 256 ^ 4 := ofLE_take_lt buf 4
    have hread : slice buf 0 4 = .ok (buf.take 4) := slice_of_le (by omega) (by omega)
    have hadd : addUsize (rootOffset buf) 4 = .ok (rootOffset buf + 4) :=
      addUsize_of_lt (by omega)
    rw [if_neg h8, hread, ok_bind]
    change (addUsize (rootOffset buf) 4 >>= _) = _
    rw [hadd, ok_bind]
    by_cases hobj : buf.length < rootOffset buf + 4
    · rw [if_pos hobj, if_pos (Or.inr hobj)]
      rfl
    · have hsoffset : slice buf (rootOffset buf) (rootOffset buf + 4)
          = .ok ((buf.drop (rootOffset buf)).take 4) := by
        rw [slice_of_le (by omega) (by omega), Nat.add_sub_cancel_left]
      rw [if_neg hobj, if_neg (not_or.mpr ⟨h8, hobj⟩)]
      change (addUsize (rootOffset buf) 4 >>= _) = _
      rw [hadd, ok_bind]
      change (slice buf (rootOffset buf) (rootOffset buf + 4) >>= _) = _
      rw [hsoffset, ok_bind]
      change (addUsize (vtableOffset buf) 4 >>= _) = _
      -- Only the second sum can overflow, for the signed offset may be negative.
      by_cases hwrap : 2 ^ 64 ≤ vtableOffset buf + 4
      · rw [if_pos hwrap, addUsize, if_neg (Nat.not_lt.mpr hwrap)]
        rfl
      · rw [if_neg hwrap, addUsize_of_lt (Nat.lt_of_not_le hwrap), ok_bind]
        rfl

/-- The checks that `from_bytes` makes: the object and the header of the vtable lie inside the
buffer, which is a slice. -/
structure Valid (t : FbTable) : Prop where
  length_lt : t.buf.length < 2 ^ 63
  obj_le : t.obj + 4 ≤ t.buf.length
  vtab_le : t.vtab + 4 ≤ t.buf.length

variable {t : FbTable} (ht : t.Valid) {idx : ℕ}
include ht

/-- The size of the vtable can be read. -/
theorem fieldPos_eq (idx : ℕ) :
    t.fieldPos idx =
      if vtableSize t.buf t.vtab < 4 + idx * 2 + 2 then .ok none
      else do
        let off := ofLE (← slice t.buf (t.vtab + (4 + idx * 2)) (t.vtab + (4 + idx * 2) + 2))
        if off = 0 then return none
        return some (← addUsize t.obj off) := by
  obtain ⟨hlen, -, hvtab⟩ := ht
  have hsize : slice t.buf t.vtab (t.vtab + 2) = .ok ((t.buf.drop t.vtab).take 2) := by
    rw [slice_of_le (by omega) (by omega), Nat.add_sub_cancel_left]
  have hbound : vtableSize t.buf t.vtab < 256 ^ 2 := ofLE_take_lt _ 2
  unfold fieldPos
  rw [addUsize_of_lt (by omega), ok_bind, hsize, ok_bind]
  change (if vtableSize t.buf t.vtab < 4 + idx * 2 + 2 then _ else _) = _
  by_cases hslot : vtableSize t.buf t.vtab < 4 + idx * 2 + 2
  · rw [if_pos hslot, if_pos hslot]
    rfl
  · rw [if_neg hslot, if_neg hslot, addUsize_of_lt (by omega), ok_bind, addUsize_of_lt (by omega),
      ok_bind]

/-- A slot inside the buffer gives a position near the object. -/
theorem fieldPos_of_inside (h : SlotInside t.buf t.vtab idx) :
    ∃ r, t.fieldPos idx = .ok r ∧ ∀ p ∈ r, p < t.obj + 256 ^ 2 := by
  rw [fieldPos_eq ht]
  by_cases hslot : vtableSize t.buf t.vtab < 4 + idx * 2 + 2
  · exact ⟨none, if_pos hslot, nofun⟩
  · have hoff := ofLE_take_lt (t.buf.drop (t.vtab + (4 + idx * 2))) 2
    have hinside := h (Nat.le_of_not_lt hslot)
    rw [if_neg hslot, slice_of_le (by omega) hinside, ok_bind, Nat.add_sub_cancel_left]
    dsimp only
    by_cases hzero : ofLE ((t.buf.drop (t.vtab + (4 + idx * 2))).take 2) = 0
    · exact ⟨none, if_pos hzero, nofun⟩
    · have hlen := ht.length_lt
      have hobj := ht.obj_le
      rw [if_neg hzero, addUsize_of_lt (by omega), ok_bind]
      refine ⟨_, rfl, ?_⟩
      rintro p ⟨⟩
      omega

/-- A slot outside the buffer is a crash. -/
theorem fieldPos_of_not_inside (h : ¬ SlotInside t.buf t.vtab idx) :
    t.fieldPos idx = .error .outOfRange := by
  unfold SlotInside at h
  obtain ⟨hslot, houtside⟩ := Classical.not_imp.mp h
  rw [fieldPos_eq ht, if_neg (Nat.not_lt.mpr hslot), slice, if_neg fun hle => houtside hle.2]
  rfl

/-- A field can be read when its slot lies inside the buffer: what follows is checked against the
buffer. -/
theorem u8At_returns_iff : Returns (t.u8At idx) ↔ SlotInside t.buf t.vtab idx := by
  by_cases h : SlotInside t.buf t.vtab idx
  · refine iff_of_true ?_ h
    obtain ⟨r, hr, -⟩ := fieldPos_of_inside ht h
    unfold u8At
    rw [hr, ok_bind]
    cases r with
    | none => exact returns_ok _
    | some p =>
      dsimp only
      by_cases hp : p < t.buf.length
      · rw [if_pos hp, index, List.getElem?_eq_getElem hp]
        exact returns_ok _
      · rw [if_neg hp]
        exact returns_ok _
  · refine iff_of_false ?_ h
    unfold u8At
    rw [fieldPos_of_not_inside ht h]
    exact not_returns_error _

/-- A `u32` is read without a panic exactly when its slot is inside the buffer. -/
theorem u32At_returns_iff : Returns (t.u32At idx) ↔ SlotInside t.buf t.vtab idx := by
  by_cases h : SlotInside t.buf t.vtab idx
  · refine iff_of_true ?_ h
    obtain ⟨r, hr, hlt⟩ := fieldPos_of_inside ht h
    have hlen := ht.length_lt
    have hobj := ht.obj_le
    unfold u32At
    rw [hr, ok_bind]
    cases r with
    | none => exact returns_ok _
    | some p =>
      have hp := hlt p rfl
      dsimp only
      rw [addUsize_of_lt (by omega), ok_bind]
      -- A field that does not fit reads as absent.
      by_cases hfits : p + 4 ≤ t.buf.length
      · rw [if_pos hfits, ok_bind, slice_of_le (by omega) hfits, ok_bind]
        exact returns_ok _
      · rw [if_neg hfits]
        exact returns_ok _
  · refine iff_of_false ?_ h
    unfold u32At
    rw [fieldPos_of_not_inside ht h]
    exact not_returns_error _

/-- So is an `f32`. -/
theorem f32At_returns_iff : Returns (t.f32At idx) ↔ SlotInside t.buf t.vtab idx :=
  u32At_returns_iff ht

/-- So is a `bool`. -/
theorem boolAt_returns_iff : Returns (t.boolAt idx) ↔ SlotInside t.buf t.vtab idx := by
  have hread : Returns (t.boolAt idx) ↔ Returns (t.u8At idx) ∧ True :=
    returns_bind_iff fun _ _ => iff_of_true (returns_ok _) trivial
  rw [hread, and_true, u8At_returns_iff ht]

/-- The event of a kind can be read when the slots of its fields lie inside the buffer. -/
theorem event_returns_iff (kind : UInt8) :
    Returns (t.event kind) ↔ ∀ idx ∈ fieldsRead kind, SlotInside t.buf t.vtab idx := by
  unfold event fieldsRead
  -- One case for each kind: it returns when all its fields can be read.
  split_ifs
  · refine (returns_bind_iff fun _ _ => returns_bind_iff fun _ _ => returns_bind_iff fun _ _ =>
      iff_of_true (returns_ok _) trivial).trans ?_
    simp [u8At_returns_iff ht, f32At_returns_iff ht]
  · refine (returns_bind_iff fun _ _ => returns_bind_iff fun _ _ => returns_bind_iff fun _ _ =>
      returns_bind_iff fun _ _ => returns_bind_iff fun _ _ => returns_bind_iff fun _ _ =>
      returns_bind_iff fun _ _ => returns_bind_iff fun _ _ =>
      iff_of_true (returns_ok _) trivial).trans ?_
    simp [u32At_returns_iff ht, f32At_returns_iff ht, and_left_comm]
  · refine (returns_bind_iff fun _ _ => returns_bind_iff fun _ _ => returns_bind_iff fun _ _ =>
      returns_bind_iff fun _ _ => returns_bind_iff fun _ _ =>
      iff_of_true (returns_ok _) trivial).trans ?_
    simp [u8At_returns_iff ht, boolAt_returns_iff ht]
  · refine (returns_bind_iff fun _ _ => iff_of_true (returns_ok _) trivial).trans ?_
    simp [u8At_returns_iff ht]
  · refine (returns_bind_iff fun _ _ => returns_bind_iff fun _ _ =>
      iff_of_true (returns_ok _) trivial).trans ?_
    simp [u8At_returns_iff ht]
  · refine (returns_bind_iff fun _ _ => iff_of_true (returns_ok _) trivial).trans ?_
    simp [u32At_returns_iff ht]
  · exact iff_of_true (returns_ok _) nofun

end FbTable

/-- The bytes behind the kind byte meet what the reader does not check: the position of the vtable
does not wrap around when the length of its header is added, and when the header lies inside the
buffer, so do the slots of the kind's fields that the vtable claims to have. Bytes that the first
two checks reject need nothing else. -/
def CrashFreeFb (kind : UInt8) (fb : List UInt8) : Prop :=
  8 ≤ fb.length → rootOffset fb + 4 ≤ fb.length →
    vtableOffset fb + 4 < 2 ^ 64 ∧
      (vtableOffset fb + 4 ≤ fb.length →
        ∀ idx ∈ fieldsRead kind, SlotInside fb (vtableOffset fb) idx)

/-- The bytes of a frame meet what the reader does not check. -/
def CrashFree : List UInt8 → Prop
  | [] => True
  | kind :: fb => CrashFreeFb kind fb

/-- Decoding the bytes behind the kind byte. -/
theorem decodeFb_returns_iff (kind : UInt8) {fb : List UInt8} (hlen : fb.length < 2 ^ 63) :
    Returns (decodeFb kind fb) ↔ CrashFreeFb kind fb := by
  unfold CrashFreeFb
  unfold decodeFb
  rw [FbTable.fromBytes_eq]
  by_cases hroot : fb.length < 8 ∨ fb.length < rootOffset fb + 4
  · rw [if_pos hroot]
    refine iff_of_true (returns_ok _) ?_
    omega
  · obtain ⟨h8, hobj⟩ := not_or.mp hroot
    rw [if_neg hroot, imp_iff_right (Nat.le_of_not_lt h8), imp_iff_right (Nat.le_of_not_lt hobj)]
    by_cases hwrap : 2 ^ 64 ≤ vtableOffset fb + 4
    · rw [if_pos hwrap]
      exact iff_of_false (not_returns_error _) fun h => Nat.not_lt.mpr hwrap h.1
    · rw [if_neg hwrap, and_iff_right (Nat.lt_of_not_le hwrap)]
      by_cases hvtab : fb.length < vtableOffset fb + 4
      · rw [if_pos hvtab]
        exact iff_of_true (returns_ok _) fun h => absurd h (Nat.not_le.mpr hvtab)
      · have hvalid : (FbTable.mk fb (rootOffset fb) (vtableOffset fb)).Valid :=
          ⟨hlen, Nat.le_of_not_lt hobj, Nat.le_of_not_lt hvtab⟩
        rw [if_neg hvtab, ok_bind, imp_iff_right (Nat.le_of_not_lt hvtab)]
        exact FbTable.event_returns_iff hvalid kind

/-- A frame is decoded or rejected without a crash if and only if its bytes meet what the reader
does not check. -/
theorem decodeFrame_returns_iff (frameBody : ByteSlice) :
    Returns (decodeFrame frameBody) ↔ CrashFree frameBody.bytes := by
  obtain ⟨bytes, hlen⟩ := frameBody
  cases bytes with
  | nil => exact iff_of_true (returns_ok _) trivial
  | cons kind fb =>
    have hfb : fb.length < 2 ^ 63 := by
      rw [List.length_cons] at hlen
      omega
    exact decodeFb_returns_iff kind hfb

/-- A panic frame of 13 bytes whose vtable starts at its ninth byte and claims to be 65535 bytes
long: the slot of the first field ends beyond the buffer. -/
theorem decodeFrame_crashes :
    ¬ Returns (decodeFrame
      ⟨[kindPanic, 4, 0, 0, 0, 0xfc, 0xff, 0xff, 0xff, 0xff, 0xff, 0, 0], by decide⟩) := by
  have hcrash : decodeFrame
      ⟨[kindPanic, 4, 0, 0, 0, 0xfc, 0xff, 0xff, 0xff, 0xff, 0xff, 0, 0], by decide⟩
        = .error .outOfRange := by
    decide
  rw [hcrash]
  exact not_returns_error _

end LowBand.Platform
