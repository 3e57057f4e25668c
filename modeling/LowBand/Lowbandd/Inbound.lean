import LowBand.Lowbandd.ScreenTransfer
import LowBand.Lowbandd.Voice
import LowBand.Lowbandd.XferWire
import LowBand.Messaging.Wire

/-!
# One socket for four protocols

`classify` of `inbound.rs` tells from the first byte of a datagram which protocol it is of, and the
router then uses the decoder of that protocol alone. `Unambiguous` says what makes this work for one
protocol, and `inbound_unambiguous` that all four have it.

It follows from what the decoders of the four modules accept: only bytes that begin with the
encoding of the frame they return, so the first byte is one of its kinds.
-/

namespace LowBand.Lowbandd

open Lib Messaging

/-- `Channel`. -/
inductive Channel where
  /-- A message. -/
  | message
  /-- A frame of a file transfer. -/
  | file
  /-- A frame of a screen transfer. -/
  | screen
  /-- A voice frame. -/
  | voice
  /-- No protocol has this kind. -/
  | unknown (kind : UInt8)
deriving DecidableEq

/-- `classify`. -/
def classify : List UInt8 → Channel
  | [] => .unknown 0
  | b :: _ =>
    if 0x01 ≤ b ∧ b ≤ 0x04 then .message
    else if 0x10 ≤ b ∧ b ≤ 0x12 then .file
    else if 0x20 ≤ b ∧ b ≤ 0x22 then .screen
    else if 0x30 ≤ b ∧ b ≤ 0x31 then .voice
    else .unknown b

/-- What a protocol needs to share the socket. -/
structure Unambiguous {φ : Type} (encode : φ → List UInt8) (decode : List UInt8 → Option φ)
    (withinCaps : φ → Prop) (channel : Channel) : Prop where
  /-- A frame within the caps comes back. -/
  roundTrip : ∀ f, withinCaps f → decode (encode f) = some f
  /-- A frame is sent to its protocol. -/
  routed : ∀ f, classify (encode f) = channel
  /-- What is sent to another protocol would be refused. -/
  refused : ∀ bytes, classify bytes ≠ channel → decode bytes = none
  /-- Whatever the bytes are, they are refused, or the frame that they are decoded to lies within
  them and comes back when it is encoded again. -/
  stable : ∀ bytes, decode bytes = none ∨
    ∃ f, decode bytes = some f ∧ encode f <+: bytes ∧ decode (encode f) = some f

/-- A protocol whose frames come back, whose decoder accepts only bytes that begin with the encoding
of a frame, and whose kinds are those of the channel. -/
theorem Unambiguous.of_decode {φ : Type} {encode : φ → List UInt8}
    {decode : List UInt8 → Option φ} {withinCaps : φ → Prop} {channel : Channel}
    (hround : ∀ f, withinCaps f → decode (encode f) = some f)
    (hdecode : ∀ {bytes f}, decode bytes = some f → withinCaps f ∧ encode f <+: bytes)
    (hkind : ∀ f rest, classify (encode f ++ rest) = channel) :
    Unambiguous encode decode withinCaps channel where
  roundTrip := hround
  routed := by
    intro f
    have hrouted := hkind f []
    rwa [List.append_nil] at hrouted
  refused := by
    intro bytes hother
    rw [Option.eq_none_iff_forall_ne_some]
    intro f hf
    obtain ⟨-, rest, rfl⟩ := hdecode hf
    exact hother (hkind f rest)
  stable := by
    intro bytes
    cases hf : decode bytes with
    | none => exact .inl rfl
    | some f =>
      obtain ⟨hcaps, hin⟩ := hdecode hf
      exact .inr ⟨f, rfl, hin, hround f hcaps⟩

/-- A decoder that accepts exactly the bytes that begin with the encoding of a frame within the
caps. -/
theorem Unambiguous.of_decode_ok {φ ε : Type} {encode : φ → List UInt8}
    {decode : List UInt8 → Except ε φ} {withinCaps : φ → Prop} {channel : Channel}
    (hdecode : ∀ {bytes f}, decode bytes = .ok f ↔ withinCaps f ∧ encode f <+: bytes)
    (hkind : ∀ f rest, classify (encode f ++ rest) = channel) :
    Unambiguous encode (fun bytes => (decode bytes).toOption) withinCaps channel := by
  have hsome : ∀ {bytes f}, (decode bytes).toOption = some f ↔ decode bytes = .ok f := by
    intro bytes f
    cases decode bytes <;> simp [Except.toOption]
  refine .of_decode (fun f hcaps => ?_) (fun h => hdecode.mp (hsome.mp h)) hkind
  exact hsome.mpr (hdecode.mpr ⟨hcaps, List.prefix_refl _⟩)

/-- The frames of messages are unambiguous. -/
theorem message_unambiguous :
    Unambiguous MessageFrame.encode (fun bytes => (MessageFrame.decode bytes).toOption)
      MessageFrame.WithinCaps .message :=
  .of_decode_ok MessageFrame.decode_ok fun f _ => by cases f <;> rfl

/-- So are those of files. -/
theorem file_unambiguous :
    Unambiguous XferFrame.encode (fun bytes => (XferFrame.decode bytes).toOption)
      XferFrame.WithinCaps .file :=
  .of_decode_ok XferFrame.decode_ok fun f _ => by cases f <;> rfl

/-- So are those of the screen. -/
theorem screen_unambiguous :
    Unambiguous ScreenFrame.encode (fun bytes => (ScreenFrame.decode bytes).toOption)
      ScreenFrame.WithinCaps .screen :=
  .of_decode_ok ScreenFrame.decode_ok fun f _ => by cases f <;> rfl

/-- So are those of voice. -/
theorem voice_unambiguous :
    Unambiguous VoiceFrame.encode VoiceFrame.decode (fun _ => True) .voice :=
  .of_decode (fun f _ => f.decode_encode)
    (fun h => ⟨trivial, VoiceFrame.encode_prefix_of_decode h⟩) fun f _ => by cases f <;> rfl

/-- The messages, the file transfer, the screen transfer and the voice frames share one socket: each
frame within the caps comes back, goes to its own protocol and is refused by the others, and no
bytes are decoded to a frame that does not lie within them or does not come back. -/
theorem inbound_unambiguous :
    Unambiguous MessageFrame.encode (fun bytes => (MessageFrame.decode bytes).toOption)
        MessageFrame.WithinCaps .message ∧
      Unambiguous XferFrame.encode (fun bytes => (XferFrame.decode bytes).toOption)
        XferFrame.WithinCaps .file ∧
      Unambiguous ScreenFrame.encode (fun bytes => (ScreenFrame.decode bytes).toOption)
        ScreenFrame.WithinCaps .screen ∧
      Unambiguous VoiceFrame.encode VoiceFrame.decode (fun _ => True) .voice :=
  ⟨message_unambiguous, file_unambiguous, screen_unambiguous, voice_unambiguous⟩

/-! ## The router -/

/-- A frame of one of the protocols. -/
inductive InboundFrame where
  /-- A message. -/
  | message (frame : MessageFrame)
  /-- A frame of a file transfer. -/
  | file (frame : XferFrame)
  /-- A frame of a screen transfer. -/
  | screen (frame : ScreenFrame)
  /-- A voice frame. -/
  | voice (frame : VoiceFrame)

namespace InboundFrame

/-- The bytes of a frame. -/
def encode : InboundFrame → List UInt8
  | .message frame => frame.encode
  | .file frame => frame.encode
  | .screen frame => frame.encode
  | .voice frame => frame.encode

/-- The frame that `InboundRouter::handle` decodes, before it is applied. -/
def decode (bytes : List UInt8) : Option InboundFrame :=
  match classify bytes with
  | .message => (MessageFrame.decode bytes).toOption.map .message
  | .file => (XferFrame.decode bytes).toOption.map .file
  | .screen => (ScreenFrame.decode bytes).toOption.map .screen
  | .voice => (VoiceFrame.decode bytes).map .voice
  | .unknown _ => none

/-- The fields are within the caps of the protocol. -/
def WithinCaps : InboundFrame → Prop
  | .message frame => frame.WithinCaps
  | .file frame => frame.WithinCaps
  | .screen frame => frame.WithinCaps
  | .voice _ => True

/-- The router decodes every frame within its caps to itself. -/
theorem decode_encode {f : InboundFrame} (hcaps : f.WithinCaps) : decode f.encode = some f := by
  cases f with
  | message frame =>
    simp only [encode, decode, message_unambiguous.routed,
      message_unambiguous.roundTrip frame hcaps, Option.map_some]
  | file frame =>
    simp only [encode, decode, file_unambiguous.routed, file_unambiguous.roundTrip frame hcaps,
      Option.map_some]
  | screen frame =>
    simp only [encode, decode, screen_unambiguous.routed,
      screen_unambiguous.roundTrip frame hcaps, Option.map_some]
  | voice frame =>
    simp only [encode, decode, voice_unambiguous.routed, voice_unambiguous.roundTrip frame hcaps,
      Option.map_some]

end InboundFrame

end LowBand.Lowbandd
