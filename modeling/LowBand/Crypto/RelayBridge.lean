import LowBand.Crypto.RelayGuard
import LowBand.Lbtp.PacerTick
import LowBand.Lbtp.TcpFallback
import LowBand.Lbtp.TurnRelay

/-!
# From the pacer to the relay and to TCP

What the pacer sends goes out sealed, on the direct path or, when that fails, through the bridge of
`relay_guard.rs` to a TURN relay or through the framer of `tcp_fallback.rs`. Both of these take at
most 1200 bytes.

The pacer keeps a datagram to 1200 bytes with 19 bytes of overhead, three of envelope and sixteen of
tag. Sealing adds 28 bytes, since the nonce goes along (`length_sealDatagram`), so the relay and TCP
carry a plaintext of at most 1172 bytes (`carried_iff`). The pacer allows 1181, and it counts two
bytes of header for a frame that is longer than 127 bytes, whose length takes two bytes already.
`carriesTick_iff` says, for every state that the pacer reaches, when its next datagram is carried:
when the frames that the state admits take no more than the 1172 bytes on the wire.
-/

namespace LowBand.Crypto

open Lib Lbtp

/-- `E2eeRelayBridge`. -/
structure E2eeRelayBridge where
  /-- The framer of the relay's channel. -/
  framer : TurnChannelDataFramer
deriving DecidableEq

namespace E2eeRelayBridge

/-- `E2eeRelayBridge::new`. -/
def new (channelNumber : UInt16) : E2eeRelayBridge := ⟨⟨channelNumber⟩⟩

/-- `frame_for_relay`. -/
def frameForRelay (b : E2eeRelayBridge) (payload : RelayPayload) : Option (List UInt8) :=
  b.framer.encode payload.asBytes

end E2eeRelayBridge

variable (A : Aead) (pack : List PacerFrame → List UInt8)

/-- The plaintext, sealed, is accepted by the bridge to the relay and by the TCP framer. -/
def Carried (cipher : DatagramCipher) (bridge : E2eeRelayBridge) (plaintext : List UInt8) : Prop :=
  (bridge.frameForRelay (cipher.sealDatagram A plaintext).1).isSome = true ∧
    (tcpEncode (cipher.sealDatagram A plaintext).1.asBytes).isSome = true

/-- The datagram of a tick, if there is one, is carried by the relay and by TCP under every cipher.
The frames are packed into the plaintext by `pack`. -/
def CarriesTick (p : Pacer) : Prop :=
  ∀ frames, p.drainTick.1 = some frames →
    ∀ cipher bridge, Carried A cipher bridge (pack frames)

/-- The most that the relay and TCP carry of the frames of a datagram. -/
def carriedBytes : ℕ := 1200 - relayGuardOverheadBytes

variable {A pack}

/-- Sealing adds the nonce and the tag. -/
theorem length_sealDatagram (cipher : DatagramCipher) (plaintext : List UInt8) :
    (cipher.sealDatagram A plaintext).1.asBytes.length
      = plaintext.length + relayGuardOverheadBytes := by
  unfold DatagramCipher.sealDatagram relayGuardOverheadBytes
  simp only [List.length_append, Bytes.length_val, A.length_encrypt]
  omega

/-- The TCP framer takes what is not longer than a datagram. -/
theorem tcpEncode_isSome_iff (datagram : List UInt8) :
    (tcpEncode datagram).isSome = true ↔ datagram.length ≤ tcpMaxDatagramBytes := by
  unfold tcpEncode
  split
  · next h => simpa using h
  · next h => simpa using h

/-- A plaintext is carried when it leaves room for the nonce and the tag. -/
theorem carried_iff (cipher : DatagramCipher) (bridge : E2eeRelayBridge) (plaintext : List UInt8) :
    Carried A cipher bridge plaintext ↔ plaintext.length ≤ carriedBytes := by
  unfold Carried E2eeRelayBridge.frameForRelay
  rw [TurnChannelDataFramer.encode_isSome_iff, tcpEncode_isSome_iff, length_sealDatagram]
  unfold turnMaxPayloadBytes tcpMaxDatagramBytes carriedBytes relayGuardOverheadBytes
  omega

/-- The bytes of a varint, seven bits a byte. -/
def varintBytes (n : ℕ) : ℕ := if n < 2 ^ 7 then 1 else varintBytes (n / 2 ^ 7) + 1

/-- The bytes of a frame on the wire: the channel and type, the length as a varint, the data. -/
def wireSlot (f : PacerFrame) : ℕ := 1 + varintBytes f.data.length + f.data.length

/-- The bytes of frames on the wire. -/
def wireBytes (frames : List PacerFrame) : ℕ := (frames.map wireSlot).sum

/-- The bytes on the wire do not depend on the order of the frames. -/
theorem wireBytes_perm {fs gs : List PacerFrame} (h : fs.Perm gs) : wireBytes fs = wireBytes gs :=
  (h.map wireSlot).sum_eq

/-- A tick sends the frames that it aggregates, if there are any. -/
theorem drainTick_eq_some_iff {p : Pacer} {frames : List PacerFrame} :
    p.drainTick.1 = some frames ↔ frames ≠ [] ∧ p.drain.1 = frames := by
  unfold Pacer.drainTick
  dsimp only
  cases hframes : p.drain.1 with
  | nil =>
    constructor
    · intro h
      cases h
    · rintro ⟨hne, rfl⟩
      exact absurd rfl hne
  | cons f fs =>
    constructor
    · rintro ⟨⟩
      exact ⟨List.cons_ne_nil f fs, rfl⟩
    · rintro ⟨-, rfl⟩
      rfl

/-- The datagram of a tick is carried if and only if the frames that the tick collects leave room
for the nonce and the tag. -/
theorem carriesTick_iff_drain (hpack : ∀ frames, (pack frames).length = wireBytes frames)
    (p : Pacer) : CarriesTick A pack p ↔ wireBytes p.drain.1 ≤ carriedBytes := by
  unfold CarriesTick
  simp only [carried_iff, hpack, drainTick_eq_some_iff]
  constructor
  · intro h
    by_cases hnil : p.drain.1 = []
    · rw [hnil]
      exact Nat.zero_le _
    · exact h _ ⟨hnil, rfl⟩ (.new (.fill 32 0)) (.new 0x4000)
  · rintro h frames ⟨-, rfl⟩ _ _
    exact h

/-- Every state that a run of the pacer reaches admits some number of frames of each channel, and
the relay and TCP carry its next datagram if and only if these frames take at most 1172 bytes on the
wire. -/
theorem carriesTick_iff (hpack : ∀ frames, (pack frames).length = wireBytes frames) (rateBps : ℚ)
    (es : List PacerEvent) :
    let p := (run PacerRun.step (PacerRun.start rateBps) es).pacer
    (∃ n, p.Admits n) ∧
      ∀ n, p.Admits n → (CarriesTick A pack p ↔ wireBytes (p.fronts n) ≤ 1172) := by
  intro p
  have hinv : PacerRun.Inv (run PacerRun.step (PacerRun.start rateBps) es) :=
    run_induction PacerRun.Inv.step es (PacerRun.Inv.start rateBps)
  have hadmits := Pacer.admits_drain hinv.valid
  refine ⟨⟨_, hadmits⟩, fun n hn => ?_⟩
  -- The admitted frames are those that the tick collects.
  have hperm := Pacer.fronts_drain_perm hinv.valid
  rw [hn.eq hadmits, wireBytes_perm hperm]
  exact carriesTick_iff_drain hpack p

/-- The varint of a number, seven bits a byte and the low ones first. -/
def varint (n : ℕ) : List UInt8 :=
  if n < 2 ^ 7 then [UInt8.ofNat n] else UInt8.ofNat (n % 2 ^ 7 + 2 ^ 7) :: varint (n / 2 ^ 7)

/-- A varint has as many bytes as `varintBytes` says. -/
theorem length_varint (n : ℕ) : (varint n).length = varintBytes n := by
  induction n using varint.induct with
  | case1 n h =>
    rw [varint, varintBytes, if_pos h, if_pos h]
    rfl
  | case2 n h ih =>
    rw [varint, varintBytes, if_neg h, if_neg h, List.length_cons, ih]

/-- The frames one after another, each with its channel and its length in front. -/
def packFrames (frames : List PacerFrame) : List UInt8 :=
  frames.flatMap fun f => UInt8.ofNat f.channel :: (varint f.data.length ++ f.data)

/-- A packed datagram has as many bytes as `wireBytes` says. -/
theorem length_packFrames (frames : List PacerFrame) :
    (packFrames frames).length = wireBytes frames := by
  induction frames with
  | nil => rfl
  | cons f frames ih =>
    unfold packFrames wireBytes at *
    rw [List.flatMap_cons, List.length_append, ih, List.map_cons, List.sum_cons]
    simp only [List.length_cons, List.length_append, length_varint, wireSlot]
    omega

/-- Frames of 127 bytes and one of `last` bytes on a channel, and 5 ms of tokens for them at
2 Mbps. -/
def framesOn (channel : ChannelId) (n last : ℕ) : List PacerEvent :=
  List.replicate n (.enqueue ⟨channel, List.replicate 127 0⟩) ++
    [.enqueue ⟨channel, List.replicate last 0⟩, .advance 5000000]

/-- The state after nine frames of 127 bytes and one of 9 admits all ten of channel 0. -/
theorem admits_ten_frames :
    (run PacerRun.step (PacerRun.start 2000000) (framesOn 0 9 9)).pacer.Admits
      fun ch => if ch = 0 then 10 else 0 where
  queued := by decide +kernel
  paid := by decide +kernel
  size := by decide +kernel
  full := by
    -- No queue has a next frame.
    intro ch f hf
    have hnone : ∀ ch, ((run PacerRun.step (PacerRun.start 2000000)
        (framesOn 0 9 9)).pacer.queues ch)[if ch = 0 then 10 else 0]? = none := by decide +kernel
    rw [hnone ch] at hf
    cases hf

/-- Ten frames with 1172 bytes are carried. -/
theorem carriesTick_ten_frames :
    CarriesTick Aead.clear packFrames
      (run PacerRun.step (PacerRun.start 2000000) (framesOn 0 9 9)).pacer :=
  ((carriesTick_iff length_packFrames 2000000 (framesOn 0 9 9)).2 _ admits_ten_frames).mpr
    (by decide +kernel)

/-- One byte more, and neither the relay nor TCP takes the datagram. One frame of 1170 bytes, which
leaves the pacer with two bytes of header, is not taken either. -/
theorem not_carriesTick_ten_frames :
    ¬ CarriesTick Aead.clear packFrames
        (run PacerRun.step (PacerRun.start 2000000) (framesOn 0 9 10)).pacer ∧
      ¬ CarriesTick Aead.clear packFrames
        (run PacerRun.step (PacerRun.start 2000000) (framesOn 0 0 1170)).pacer := by
  rw [carriesTick_iff_drain length_packFrames, carriesTick_iff_drain length_packFrames]
  decide +kernel

end LowBand.Crypto
