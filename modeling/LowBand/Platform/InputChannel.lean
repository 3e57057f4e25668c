import LowBand.Platform.Varint
import Mathlib.Algebra.Ring.Int.Defs

/-!
# The input channel

The encoder and decoder of input events (`core/platform/src/input_channel_sender.rs`). Keyboard
events carry the difference of their keycode to the last one, as a signed varint, so each side keeps
the last keycode. Mouse moves carry two varints, button events one byte.

Keycodes are unsigned 32-bit integers whose difference is taken as signed ones. When the two are so
far apart that the difference does not fit, the sender's subtraction overflows; a build that lets it
wrap sends a difference that the decoder's checked addition rejects (`checkedAdd_wrapped`). For all
other events one transfer hands the event over and leaves both sides with the same keycode
(`transfer_of_near`), so a whole session is in lockstep if and only if no two consecutive keycodes
are that far apart (`lockstep_iff`).
-/

namespace LowBand.Platform

open Lib

/-- The mouse buttons. -/
inductive MouseButton
  | left
  | right
  | middle
  deriving DecidableEq, Repr

/-- An input event. The pointer deltas are signed integers: `dx.round() as i32` and the way back
`dx as f64` are exact on these. -/
inductive InputEvent
  | keyPress (keycode : BitVec 32)
  | keyRelease (keycode : BitVec 32)
  | mouseMove (dx dy : BitVec 32)
  | mouseButtonPress (button : MouseButton)
  | mouseButtonRelease (button : MouseButton)
  deriving DecidableEq, Repr

/-- `MAX_INPUT_FRAME_BYTES`. -/
def maxInputFrameBytes : ℕ := 1179

/-- `DISC_KEY_PRESS`. -/
def discKeyPress : UInt8 := 0x01

/-- `DISC_KEY_RELEASE`. -/
def discKeyRelease : UInt8 := 0x02

/-- `DISC_MOUSE_MOVE`. -/
def discMouseMove : UInt8 := 0x10

/-- `DISC_BUTTON_PRESS`. -/
def discButtonPress : UInt8 := 0x20

/-- `DISC_BUTTON_RELEASE`. -/
def discButtonRelease : UInt8 := 0x21

/-- The wire byte of a button. -/
def buttonToWire : MouseButton → UInt8
  | .left => 0
  | .right => 1
  | .middle => 2

/-- The button of a wire byte. -/
def wireToButton (byte : UInt8) : Option MouseButton :=
  if byte = 0 then some .left
  else if byte = 1 then some .right
  else if byte = 2 then some .middle
  else none

/-- `checked_add` on `i32`. -/
def checkedAdd (x y : BitVec 32) : Option (BitVec 32) :=
  if x.saddOverflow y then none else some (x + y)

/-! ## The sender -/

/-- The sender: the last keycode it has sent. -/
structure InputChannelSender where
  lastKeycode : BitVec 32
  deriving DecidableEq, Repr

namespace InputChannelSender

/-- A new sender. -/
def new : InputChannelSender := ⟨0⟩

/-- The frame of a keyboard event. -/
def encodeKey (s : InputChannelSender) (disc : UInt8) (keycode : BitVec 32) :
    Except Overflow (List UInt8 × InputChannelSender) := do
  let delta ← subI32 keycode s.lastKeycode
  return (disc :: encodeVarintI32 delta, ⟨keycode⟩)

/-- The bytes of an event, as the `match` of `encode` writes them to its buffer. -/
def encodeBuf (s : InputChannelSender) :
    InputEvent → Except Overflow (List UInt8 × InputChannelSender)
  | .keyPress keycode => s.encodeKey discKeyPress keycode
  | .keyRelease keycode => s.encodeKey discKeyRelease keycode
  | .mouseMove dx dy => .ok (discMouseMove :: (encodeVarintI32 dx ++ encodeVarintI32 dy), s)
  | .mouseButtonPress button => .ok ([discButtonPress, buttonToWire button], s)
  | .mouseButtonRelease button => .ok ([discButtonRelease, buttonToWire button], s)

/-- The frame of an event, unless it is too long. -/
def encode (s : InputChannelSender) (event : InputEvent) :
    Except Overflow (Option (List UInt8) × InputChannelSender) := do
  let (buf, s) ← s.encodeBuf event
  return (if buf.length ≤ maxInputFrameBytes then some buf else none, s)

end InputChannelSender

/-! ## The decoder -/

/-- The decoder: the last keycode it has read. -/
structure InputChannelDecoder where
  lastKeycode : BitVec 32
  deriving DecidableEq, Repr

namespace InputChannelDecoder

/-- A new decoder. -/
def new : InputChannelDecoder := ⟨0⟩

/-- The payload of a keyboard event. -/
def decodeKey (d : InputChannelDecoder) (event : BitVec 32 → InputEvent) (rest : List UInt8) :
    Except Overflow (Option InputEvent × InputChannelDecoder) := do
  match ← decodeVarintI32 rest with
  | none => return (none, d)
  | some (delta, _) =>
    match checkedAdd d.lastKeycode delta with
    | none => return (none, d)
    | some keycode => return (some (event keycode), ⟨keycode⟩)

/-- The payload of a mouse move. -/
def decodeMove (d : InputChannelDecoder) (rest : List UInt8) :
    Except Overflow (Option InputEvent × InputChannelDecoder) := do
  match ← decodeVarintI32 rest with
  | none => return (none, d)
  | some (dx, consumed) =>
    match ← decodeVarintI32 (rest.drop consumed) with
    | none => return (none, d)
    | some (dy, _) => return (some (.mouseMove dx dy), d)

/-- The payload of a button event. -/
def decodeButton (d : InputChannelDecoder) (event : MouseButton → InputEvent) (rest : List UInt8) :
    Except Overflow (Option InputEvent × InputChannelDecoder) :=
  .ok ((rest.head?.bind wireToButton).map event, d)

/-- The event of a frame, if the frame is well-formed. -/
def decode (d : InputChannelDecoder) (bytes : List UInt8) :
    Except Overflow (Option InputEvent × InputChannelDecoder) :=
  match bytes with
  | [] => .ok (none, d)
  | disc :: rest =>
    if disc = discKeyPress then d.decodeKey .keyPress rest
    else if disc = discKeyRelease then d.decodeKey .keyRelease rest
    else if disc = discMouseMove then d.decodeMove rest
    else if disc = discButtonPress then d.decodeButton .mouseButtonPress rest
    else if disc = discButtonRelease then d.decodeButton .mouseButtonRelease rest
    else .ok (none, d)

/-- Decoding did not overflow, and if it rejected the frame it kept the last keycode. -/
def Keeps (d : InputChannelDecoder)
    (result : Except Overflow (Option InputEvent × InputChannelDecoder)) : Prop :=
  ∃ r, result = .ok r ∧ (r.1 = none → r.2.lastKeycode = d.lastKeycode)

variable (d : InputChannelDecoder)

/-- Decoding a key does not overflow. -/
theorem keeps_decodeKey (event : BitVec 32 → InputEvent) (rest : List UInt8) :
    d.Keeps (d.decodeKey event rest) := by
  obtain ⟨r, hr⟩ := decodeVarintI32_ok rest
  unfold decodeKey
  rw [hr, ok_bind]
  cases r with
  | none => exact ⟨_, rfl, fun _ => rfl⟩
  | some p =>
    dsimp only
    cases checkedAdd d.lastKeycode p.1 with
    | none => exact ⟨_, rfl, fun _ => rfl⟩
    | some keycode => exact ⟨_, rfl, nofun⟩

/-- Nor does decoding a move. -/
theorem keeps_decodeMove (rest : List UInt8) : d.Keeps (d.decodeMove rest) := by
  obtain ⟨r, hr⟩ := decodeVarintI32_ok rest
  unfold decodeMove
  rw [hr, ok_bind]
  cases r with
  | none => exact ⟨_, rfl, fun _ => rfl⟩
  | some p =>
    obtain ⟨r', hr'⟩ := decodeVarintI32_ok (rest.drop p.2)
    dsimp only
    rw [hr', ok_bind]
    cases r' with
    | none => exact ⟨_, rfl, fun _ => rfl⟩
    | some q => exact ⟨_, rfl, nofun⟩

/-- No frame makes the decoder overflow, and a rejected frame leaves the last keycode as it was. -/
theorem keeps_decode (bytes : List UInt8) : d.Keeps (d.decode bytes) := by
  unfold decode
  split
  · exact ⟨_, rfl, fun _ => rfl⟩
  · split_ifs
    · exact d.keeps_decodeKey _ _
    · exact d.keeps_decodeKey _ _
    · exact d.keeps_decodeMove _
    · exact ⟨_, rfl, fun _ => rfl⟩
    · exact ⟨_, rfl, fun _ => rfl⟩
    · exact ⟨_, rfl, fun _ => rfl⟩

end InputChannelDecoder

/-! ## The difference of two keycodes -/

/-- The signed difference of the keycodes fits in 32 bits. -/
def NearKeycodes (keycode last : BitVec 32) : Prop :=
  -2 ^ 31 ≤ keycode.toInt - last.toInt ∧ keycode.toInt - last.toInt < 2 ^ 31

/-- Whether two keycodes are near can be decided. -/
instance (keycode last : BitVec 32) : Decidable (NearKeycodes keycode last) :=
  inferInstanceAs (Decidable (_ ∧ _))

/-- Their difference does not overflow exactly when they are near. -/
theorem not_ssubOverflow_iff (keycode last : BitVec 32) :
    ¬ keycode.ssubOverflow last ↔ NearKeycodes keycode last := by
  simp only [BitVec.ssubOverflow, Bool.or_eq_true, decide_eq_true_eq, NearKeycodes]
  omega

/-- The decoder's addition undoes a subtraction that did not overflow. -/
theorem checkedAdd_sub {keycode last : BitVec 32} (h : NearKeycodes keycode last) :
    checkedAdd last (keycode - last) = some keycode := by
  have hsub := BitVec.toInt_sub_of_not_ssubOverflow ((not_ssubOverflow_iff keycode last).mpr h)
  have hle := BitVec.le_toInt keycode
  have hlt := BitVec.toInt_lt (x := keycode)
  have hadd : ¬ last.saddOverflow (keycode - last) := by
    simp only [BitVec.saddOverflow, Bool.or_eq_true, decide_eq_true_eq, hsub]
    omega
  unfold checkedAdd
  rw [if_neg hadd, BitVec.add_comm, BitVec.sub_add_cancel]

/-- With a subtraction that wraps around instead, the decoder rejects the difference. -/
theorem checkedAdd_wrapped {keycode last : BitVec 32} (h : ¬ NearKeycodes keycode last) :
    checkedAdd last (keycode - last) = none := by
  have hsub : (keycode - last).toInt = (keycode.toInt - last.toInt).bmod (2 ^ 32) :=
    BitVec.toInt_sub ..
  have hle := BitVec.le_toInt keycode
  have hlt := BitVec.toInt_lt (x := keycode)
  have hle' := BitVec.le_toInt last
  have hlt' := BitVec.toInt_lt (x := last)
  refine if_pos ?_
  simp only [BitVec.saddOverflow, Bool.or_eq_true, decide_eq_true_eq, hsub, Int.bmod_def]
  unfold NearKeycodes at h
  split <;> omega

/-! ## A session -/

/-- The two ends of the channel. -/
structure InputChannel where
  sender : InputChannelSender
  decoder : InputChannelDecoder
  deriving DecidableEq, Repr

namespace InputChannel

/-- A new session. -/
def new : InputChannel := ⟨.new, .new⟩

/-- One event: it is encoded, and its frame is decoded at the other end. -/
def transfer (c : InputChannel) (event : InputEvent) :
    Except Overflow (Option InputEvent × InputChannel) := do
  let (frame, sender) ← c.sender.encode event
  match frame with
  | none => return (none, ⟨sender, c.decoder⟩)
  | some bytes =>
    let (event, decoder) ← c.decoder.decode bytes
    return (event, ⟨sender, decoder⟩)

/-- Every event of a session is decoded as it was encoded, the two last keycodes are equal after
every frame, and no arithmetic step overflows. -/
def Lockstep : InputChannel → List InputEvent → Prop
  | _, [] => True
  | c, event :: events =>
    ∃ c', c.transfer event = .ok (some event, c') ∧
      c'.sender.lastKeycode = c'.decoder.lastKeycode ∧ Lockstep c' events

/-- The keycode of a keyboard event. -/
def keycode? : InputEvent → Option (BitVec 32)
  | .keyPress keycode => some keycode
  | .keyRelease keycode => some keycode
  | _ => none

/-- The last keycode after an event. -/
def keycodeAfter (event : InputEvent) (last : BitVec 32) : BitVec 32 := (keycode? event).getD last

/-- The keycode of each keyboard event is near the one before it, with `last` before the first. -/
def NearAll : BitVec 32 → List InputEvent → Prop
  | _, [] => True
  | last, event :: events =>
    (∀ keycode ∈ keycode? event, NearKeycodes keycode last) ∧
      NearAll (keycodeAfter event last) events

/-- The frame of a keyboard event. -/
theorem encodeKey_of_near {s : InputChannelSender} (disc : UInt8) {keycode : BitVec 32}
    (h : NearKeycodes keycode s.lastKeycode) :
    s.encodeKey disc keycode
      = .ok (disc :: encodeVarintI32 (keycode - s.lastKeycode), ⟨keycode⟩) := by
  have hsub : subI32 keycode s.lastKeycode = .ok (keycode - s.lastKeycode) :=
    if_neg ((not_ssubOverflow_iff _ _).mpr h)
  unfold InputChannelSender.encodeKey
  rw [hsub, ok_bind]
  rfl

/-- A keycode that is not near the last one overflows. -/
theorem encodeKey_of_not_near {s : InputChannelSender} (disc : UInt8) {keycode : BitVec 32}
    (h : ¬ NearKeycodes keycode s.lastKeycode) : s.encodeKey disc keycode = .error .overflow := by
  have hsub : subI32 keycode s.lastKeycode = .error .overflow :=
    if_pos (not_not.mp (mt (not_ssubOverflow_iff _ _).mp h))
  unfold InputChannelSender.encodeKey
  rw [hsub]
  rfl

/-- A varint and a byte fit in a frame. -/
theorem length_encodeVarintI32_le (v : BitVec 32) : (encodeVarintI32 v).length ≤ 5 :=
  length_encodeGroups_le 5 v

/-- What the sender packs, the decoder unpacks. -/
theorem transfer_eq {s s' : InputChannelSender} {d : InputChannelDecoder} {event : InputEvent}
    {buf : List UInt8} {r : Option InputEvent × InputChannelDecoder}
    (hbuf : s.encodeBuf event = .ok (buf, s')) (hlen : buf.length ≤ 11)
    (hdec : d.decode buf = .ok r) :
    transfer ⟨s, d⟩ event = .ok (r.1, ⟨s', r.2⟩) := by
  have hfits : buf.length ≤ maxInputFrameBytes := Nat.le_trans hlen (by decide)
  have hencode : s.encode event = .ok (some buf, s') := by
    unfold InputChannelSender.encode
    rw [hbuf, ok_bind]
    dsimp only
    rw [if_pos hfits]
    rfl
  unfold transfer
  dsimp only
  rw [hencode, ok_bind]
  dsimp only
  rw [hdec, ok_bind]
  rfl

/-- The decoder reads a keyboard payload back. -/
theorem decodeKey_of_near {d : InputChannelDecoder} (event : BitVec 32 → InputEvent)
    {keycode : BitVec 32} (h : NearKeycodes keycode d.lastKeycode) :
    d.decodeKey event (encodeVarintI32 (keycode - d.lastKeycode))
      = .ok (some (event keycode), ⟨keycode⟩) := by
  have hread := decode_encode (keycode - d.lastKeycode) []
  rw [List.append_nil] at hread
  unfold InputChannelDecoder.decodeKey
  rw [hread, ok_bind]
  dsimp only
  rw [checkedAdd_sub h]
  rfl

/-- The decoder reads a mouse move back. -/
theorem decodeMove_encode (d : InputChannelDecoder) (dx dy : BitVec 32) :
    d.decodeMove (encodeVarintI32 dx ++ encodeVarintI32 dy)
      = .ok (some (.mouseMove dx dy), d) := by
  have hread := decode_encode dy []
  rw [List.append_nil] at hread
  unfold InputChannelDecoder.decodeMove
  rw [decode_encode, ok_bind]
  dsimp only
  rw [List.drop_left, hread, ok_bind]
  rfl

/-- An event whose keycode is near the last one is handed over, and both ends keep its keycode. -/
theorem transfer_of_near {last : BitVec 32} {event : InputEvent}
    (h : ∀ keycode ∈ keycode? event, NearKeycodes keycode last) :
    transfer ⟨⟨last⟩, ⟨last⟩⟩ event
      = .ok (some event, ⟨⟨keycodeAfter event last⟩, ⟨keycodeAfter event last⟩⟩) := by
  -- A tag and at most five bytes fit the datagram.
  have hkey : ∀ disc delta, (disc :: encodeVarintI32 delta).length ≤ 11 := by
    intro disc delta
    have hlen := length_encodeVarintI32_le delta
    rw [List.length_cons]
    omega
  cases event with
  | keyPress keycode =>
    have hnear := h keycode rfl
    have hdec : (InputChannelDecoder.mk last).decode
        (discKeyPress :: encodeVarintI32 (keycode - last))
          = .ok (some (.keyPress keycode), ⟨keycode⟩) :=
      decodeKey_of_near .keyPress hnear
    have hbuf : (InputChannelSender.mk last).encodeBuf (.keyPress keycode)
        = .ok (discKeyPress :: encodeVarintI32 (keycode - last), ⟨keycode⟩) :=
      encodeKey_of_near discKeyPress hnear
    exact transfer_eq hbuf (hkey _ _) hdec
  | keyRelease keycode =>
    have hnear := h keycode rfl
    have hdec : (InputChannelDecoder.mk last).decode
        (discKeyRelease :: encodeVarintI32 (keycode - last))
          = .ok (some (.keyRelease keycode), ⟨keycode⟩) :=
      decodeKey_of_near .keyRelease hnear
    have hbuf : (InputChannelSender.mk last).encodeBuf (.keyRelease keycode)
        = .ok (discKeyRelease :: encodeVarintI32 (keycode - last), ⟨keycode⟩) :=
      encodeKey_of_near discKeyRelease hnear
    exact transfer_eq hbuf (hkey _ _) hdec
  -- A move carries two varints and leaves the last key alone.
  | mouseMove dx dy =>
    have hlen : (discMouseMove :: (encodeVarintI32 dx ++ encodeVarintI32 dy)).length ≤ 11 := by
      have hdx := length_encodeVarintI32_le dx
      have hdy := length_encodeVarintI32_le dy
      rw [List.length_cons, List.length_append]
      omega
    have hdec : (InputChannelDecoder.mk last).decode
        (discMouseMove :: (encodeVarintI32 dx ++ encodeVarintI32 dy))
          = .ok (some (.mouseMove dx dy), ⟨last⟩) :=
      decodeMove_encode ⟨last⟩ dx dy
    exact transfer_eq rfl hlen hdec
  | mouseButtonPress button => cases button <;> rfl
  | mouseButtonRelease button => cases button <;> rfl

/-- An event whose keycode is not near the last one makes the sender overflow. -/
theorem transfer_of_not_near {c : InputChannel} {event : InputEvent} {keycode : BitVec 32}
    (hevent : keycode? event = some keycode)
    (h : ¬ NearKeycodes keycode c.sender.lastKeycode) :
    c.transfer event = .error .overflow := by
  -- Only key events have a keycode to be far away.
  cases event with
  | keyPress k =>
    obtain rfl : k = keycode := Option.some.inj hevent
    unfold transfer InputChannelSender.encode InputChannelSender.encodeBuf
    dsimp only
    rw [encodeKey_of_not_near discKeyPress h]
    rfl
  | keyRelease k =>
    obtain rfl : k = keycode := Option.some.inj hevent
    unfold transfer InputChannelSender.encode InputChannelSender.encodeBuf
    dsimp only
    rw [encodeKey_of_not_near discKeyRelease h]
    rfl
  | mouseMove dx dy => cases hevent
  | mouseButtonPress button => cases hevent
  | mouseButtonRelease button => cases hevent

/-- From equal keycodes, a session is in lockstep when its keycodes are near each other. -/
theorem lockstep_iff_nearAll (last : BitVec 32) (events : List InputEvent) :
    Lockstep ⟨⟨last⟩, ⟨last⟩⟩ events ↔ NearAll last events := by
  induction events generalizing last with
  | nil => exact Iff.rfl
  | cons event events ih =>
    unfold Lockstep NearAll
    constructor
    · rintro ⟨c', htransfer, -, hrest⟩
      have hnear : ∀ keycode ∈ keycode? event, NearKeycodes keycode last := by
        intro keycode hkeycode
        by_contra hfar
        have hoverflow := transfer_of_not_near (c := ⟨⟨last⟩, ⟨last⟩⟩) hkeycode hfar
        rw [hoverflow] at htransfer
        cases htransfer
      rw [transfer_of_near hnear] at htransfer
      obtain rfl := (Prod.mk.inj (Except.ok.inj htransfer)).2
      exact ⟨hnear, (ih _).mp hrest⟩
    · rintro ⟨hnear, hrest⟩
      exact ⟨_, transfer_of_near hnear, rfl, (ih _).mpr hrest⟩

/-- The lockstep of a session, and that a rejected frame leaves the decoder's keycode as it was,
hold for a sequence of events if and only if the keycode of each keyboard event differs from the one
before it, or from zero at the start, by a signed 32-bit integer. -/
theorem lockstep_iff (events : List InputEvent) :
    (Lockstep new events ∧
      ∀ (d : InputChannelDecoder) (bytes : List UInt8), d.Keeps (d.decode bytes)) ↔
      NearAll 0 events := by
  rw [and_iff_left fun d bytes => InputChannelDecoder.keeps_decode d bytes]
  exact lockstep_iff_nearAll 0 events

/-- Two adjacent keycodes on either side of the sign change. -/
theorem not_lockstep :
    ¬ Lockstep new [.keyPress 0x7fffffff, .keyPress 0x80000000] := by
  intro h
  have hnear : NearAll 0 [.keyPress 0x7fffffff, .keyPress 0x80000000] :=
    (lockstep_iff_nearAll 0 _).mp h
  exact absurd (hnear.2.1 _ rfl) (by decide)

end InputChannel

end LowBand.Platform
