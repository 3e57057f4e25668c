import LowBand.Lib.Reader
import LowBand.Lowbandd.Adpcm

/-!
# Voice

`voice.rs`: the wire format of `VoiceFrame` and the pipeline from samples to samples. A voice frame
has no length: its data is all that follows the number of samples, to the end of the datagram.

The sender drops silent frames by a gate (`dtx.rs`) before its codec sees them, and the receiver's
codec sees what arrives. `InStep.voiceFrame` takes the codec through one datagram; the two sides
stay in step over every run of frames (`voice_lockstep`), and the gate, whatever it decides, does
not come between them (`process_lockstep`).
-/

namespace LowBand.Lowbandd

open Lib

/-- `KIND_VOICE`. -/
def kindVoice : UInt8 := 0x30

/-- `KIND_SID`. -/
def kindSid : UInt8 := 0x31

/-- `VoiceFrame`. -/
inductive VoiceFrame where
  /-- Coded samples. -/
  | voice (samples : UInt16) (data : List UInt8)
  /-- Comfort noise for a gap. -/
  | sid (rms : UInt16)
deriving DecidableEq

namespace VoiceFrame

/-- `VoiceFrame::encode`. -/
def encode : VoiceFrame → List UInt8
  | .voice samples data => kindVoice :: (leBytes 2 samples.toNat ++ data)
  | .sid rms => kindSid :: leBytes 2 rms.toNat

/-- `VoiceFrame::decode`. -/
def decode : List UInt8 → Option VoiceFrame
  | [] => none
  | kind :: rest =>
    if kind = kindVoice then do
      let (n, data) ← splitAtChecked 2 rest
      pure (.voice (.ofNat (ofLE n)) data)
    else if kind = kindSid then do
      let (n, _) ← splitAtChecked 2 rest
      pure (.sid (.ofNat (ofLE n)))
    else none

/-- Two bytes are those of the number they are read as. -/
theorem leBytes_ofNat_ofLE {n : List UInt8} (hlen : n.length = 2) :
    leBytes 2 (UInt16.ofNat (ofLE n)).toNat = n := by
  have hlt : ofLE n < 256 ^ 2 := hlen ▸ ofLE_lt n
  rw [UInt16.toNat_ofNat_of_lt' hlt, ← hlen]
  exact leBytes_ofLE n

/-- Every frame comes back. -/
theorem decode_encode (f : VoiceFrame) : decode f.encode = some f := by
  cases f with
  | voice samples data =>
    have hsplit : splitAtChecked 2 (leBytes 2 samples.toNat ++ data) =
        some (leBytes 2 samples.toNat, data) :=
      splitAtChecked_eq_some.mpr ⟨length_leBytes _ _, rfl⟩
    simp [encode, decode, hsplit]
  | sid rms =>
    have hsplit : splitAtChecked 2 (leBytes 2 rms.toNat) = some (leBytes 2 rms.toNat, []) :=
      splitAtChecked_eq_some.mpr ⟨length_leBytes _ _, (List.append_nil _).symm⟩
    simp [encode, decode, kindSid, kindVoice, hsplit]

/-- The bytes that are decoded to a frame begin with its encoding. -/
theorem encode_prefix_of_decode {buf : List UInt8} {f : VoiceFrame} (h : decode buf = some f) :
    f.encode <+: buf := by
  cases buf with
  | nil => simp [decode] at h
  | cons kind rest =>
    unfold decode at h
    dsimp only at h
    split_ifs at h with hvoice hsid
    · simp only [Option.bind_eq_bind, Option.bind_eq_some_iff, Prod.exists, Option.pure_def,
        Option.some.injEq, splitAtChecked_eq_some] at h
      obtain ⟨n, data, ⟨hlen, rfl⟩, rfl⟩ := h
      refine ⟨[], ?_⟩
      rw [encode, leBytes_ofNat_ofLE hlen, hvoice, List.append_nil]
    · simp only [Option.bind_eq_bind, Option.bind_eq_some_iff, Prod.exists, Option.pure_def,
        Option.some.injEq, splitAtChecked_eq_some] at h
      obtain ⟨n, tail, ⟨hlen, rfl⟩, rfl⟩ := h
      rw [encode, leBytes_ofNat_ofLE hlen, hsid]
      exact ⟨tail, rfl⟩

end VoiceFrame

/-! ## The pipeline -/

/-- A frame of samples, coded and as a datagram. -/
def AdpcmEncoder.encodeFrame (e : AdpcmEncoder) (pcm : List Int16) : List UInt8 × AdpcmEncoder :=
  let (data, e) := e.encode pcm
  ((VoiceFrame.voice (.ofNat pcm.length) data).encode, e)

/-- `DtxAction`. -/
inductive DtxAction where
  /-- The frame is sent. -/
  | voice
  /-- Comfort noise is sent instead. -/
  | sid
  /-- Nothing is sent. -/
  | suppress
deriving DecidableEq

/-- `DTX_HANGOVER_FRAMES`. -/
def dtxHangoverFrames : ℕ := 8

/-- `DTX_SID_INTERVAL_FRAMES`. -/
def dtxSidIntervalFrames : ℕ := 20

/-- `DtxEncoder`, without the state that only its accounting reads. -/
structure DtxEncoder where
  /-- The silent frames that are still sent. -/
  hangoverRemaining : ℕ
  /-- The frames since silence began. -/
  silenceFrames : ℕ
deriving DecidableEq

namespace DtxEncoder

/-- `DtxEncoder::new`. -/
def new : DtxEncoder := ⟨dtxHangoverFrames, 0⟩

/-- `observe_vad`. -/
def observeVad (dtx : DtxEncoder) (voiceActive : Bool) : DtxAction × DtxEncoder :=
  if voiceActive then (.voice, ⟨dtxHangoverFrames, 0⟩)
  else if dtx.hangoverRemaining > 0 then
    (.voice, { dtx with hangoverRemaining := dtx.hangoverRemaining - 1 })
  else
    (if dtx.silenceFrames % dtxSidIntervalFrames = 0 then .sid else .suppress,
      { dtx with silenceFrames := dtx.silenceFrames + 1 })

end DtxEncoder

/-- What the sender takes from the `f64` level of a frame: whether it is above the threshold, and
its value as 16 bits. -/
structure Level where
  /-- `rms(pcm) >= VAD_RMS_THRESHOLD`. -/
  voiceActive : List Int16 → Bool
  /-- `rms(pcm).min(u16::MAX as f64) as u16`. -/
  floor : List Int16 → UInt16

/-- `VoiceSender`. -/
structure VoiceSender where
  /-- The gate. -/
  dtx : DtxEncoder
  /-- The codec. -/
  codec : AdpcmEncoder
deriving DecidableEq

namespace VoiceSender

/-- `VoiceSender::new`. -/
def new : VoiceSender := ⟨.new, .new⟩

/-- `process`: the datagram to send, if any. -/
def process (level : Level) (tx : VoiceSender) (pcm : List Int16) :
    Option (List UInt8) × VoiceSender :=
  match tx.dtx.observeVad (level.voiceActive pcm) with
  | (.voice, dtx) =>
    let (bytes, codec) := tx.codec.encodeFrame pcm
    (some bytes, ⟨dtx, codec⟩)
  | (.sid, dtx) => (some (VoiceFrame.sid (level.floor pcm)).encode, { tx with dtx })
  | (.suppress, dtx) => (none, { tx with dtx })

end VoiceSender

/-- `FRAME_SAMPLES`. -/
def frameSamples : ℕ := 160

/-- `VoiceReceiver`. -/
structure VoiceReceiver where
  /-- The codec. -/
  codec : AdpcmDecoder
  /-- The level of the comfort noise. -/
  comfortRms : UInt16
deriving DecidableEq

namespace VoiceReceiver

/-- `VoiceReceiver::new`. -/
def new : VoiceReceiver := ⟨.new, 0⟩

/-- `VoiceReceiver::decode`. -/
def decode (rx : VoiceReceiver) : VoiceFrame → List Int16 × VoiceReceiver
  | .voice samples data =>
    let (pcm, codec) := rx.codec.decode data samples.toNat
    (pcm, { rx with codec })
  | .sid rms => (List.replicate frameSamples 0, { rx with comfortRms := rms })

/-- A datagram is decoded and played; one that is no voice frame is dropped. -/
def recv (rx : VoiceReceiver) (bytes : List UInt8) : Option (List Int16) × VoiceReceiver :=
  match VoiceFrame.decode bytes with
  | none => (none, rx)
  | some frame => (some (rx.decode frame).1, (rx.decode frame).2)

/-- What arrives of a datagram that was sent, if one was. -/
def recv? (rx : VoiceReceiver) : Option (List UInt8) → Option (List Int16) × VoiceReceiver
  | none => (none, rx)
  | some bytes => rx.recv bytes

end VoiceReceiver

/-- A frame is played with as many samples as it had. -/
def PlayedWhole (pcm : List Int16) (out : Option (List Int16)) : Prop :=
  ∃ played, out = some played ∧ played.length = pcm.length

/-- After a voice datagram the two codecs are in step again, and the frame played has as many
samples as the one that was sent. -/
theorem InStep.voiceFrame {e : AdpcmEncoder} {rx : VoiceReceiver} (h : InStep e rx.codec)
    {pcm : List Int16} (hlen : pcm.length ≤ 65535) :
    InStep (e.encodeFrame pcm).2 (rx.recv (e.encodeFrame pcm).1).2.codec ∧
      PlayedWhole pcm (rx.recv (e.encodeFrame pcm).1).1 := by
  obtain ⟨hstep, hcount⟩ := h.frame pcm
  have hsamples : (UInt16.ofNat pcm.length).toNat = pcm.length :=
    UInt16.toNat_ofNat_of_lt' (Nat.lt_succ_of_le hlen)
  unfold AdpcmEncoder.encodeFrame VoiceReceiver.recv
  dsimp only
  rw [VoiceFrame.decode_encode]
  dsimp only [VoiceReceiver.decode]
  rw [hsamples]
  exact ⟨hstep, _, rfl, hcount⟩

/-- For every run of frames of at most 65535 samples, each coded by one encoder, sent as a voice
datagram and decoded by one decoder: after each frame the decoder is in the state of the encoder,
with the index in the step table and the predictor in 16 bits, and each frame is played with as many
samples as it had. -/
theorem voice_lockstep (frames : List (List Int16)) (hlen : ∀ pcm ∈ frames, pcm.length ≤ 65535) :
    let sent := (transduce AdpcmEncoder.encodeFrame .new frames).1
    (∀ n, InStep (transduce AdpcmEncoder.encodeFrame .new (frames.take n)).2
      (transduce VoiceReceiver.recv .new (sent.take n)).2.codec) ∧
      List.Forall₂ PlayedWhole frames (transduce VoiceReceiver.recv .new sent).1 := by
  have hstart : InStep AdpcmEncoder.new VoiceReceiver.new.codec := InStep.new
  have hrun := fun (fs : List (List Int16)) (hfs : ∀ pcm ∈ fs, pcm.length ≤ 65535) =>
    transduce_lockstep (fun e (rx : VoiceReceiver) => InStep e rx.codec)
      (fun pcm => pcm.length ≤ 65535) PlayedWhole
      (fun _ _ _ hstep hpcm => hstep.voiceFrame hpcm) hstart hfs
  refine ⟨fun n => ?_, (hrun frames hlen).2⟩
  -- What was sent after some frames is what a sender of just these would have sent.
  rw [take_transduce]
  exact (hrun (frames.take n) fun pcm hpcm => hlen pcm (List.mem_of_mem_take hpcm)).1

/-- Frames of an odd and of an even number of samples, with one without any between them, from
which the step and the predictor go to both ends of their ranges. -/
def loudFrames : List (List Int16) :=
  [[100, -300, 32767, 32767, -32768], [], [-32768, 32767, 12, -7], [5, 5, 5]]

/-- After the first two frames and after all of them the two codecs are in step, and all four frames
are played. -/
theorem voice_lockstep_loud :
    (∀ pcm ∈ loudFrames, pcm.length ≤ 65535) ∧
      (let sent := (transduce AdpcmEncoder.encodeFrame .new loudFrames).1
      InStep (transduce AdpcmEncoder.encodeFrame .new (loudFrames.take 2)).2
        (transduce VoiceReceiver.recv .new (sent.take 2)).2.codec ∧
      InStep (transduce AdpcmEncoder.encodeFrame .new (loudFrames.take 4)).2
        (transduce VoiceReceiver.recv .new (sent.take 4)).2.codec ∧
      List.Forall₂ PlayedWhole loudFrames (transduce VoiceReceiver.recv .new sent).1) := by
  have hlen : ∀ pcm ∈ loudFrames, pcm.length ≤ 65535 := by decide
  obtain ⟨hstep, hplayed⟩ := voice_lockstep loudFrames hlen
  exact ⟨hlen, hstep 2, hstep 4, hplayed⟩

/-- With the gate before the encoder the two codecs are in step as well: a frame that the gate
keeps back is seen by neither. -/
theorem process_lockstep (level : Level) (frames : List (List Int16))
    (hlen : ∀ pcm ∈ frames, pcm.length ≤ 65535) :
    let sent := transduce (VoiceSender.process level) .new frames
    let played := transduce VoiceReceiver.recv? .new sent.1
    InStep sent.2.codec played.2.codec := by
  refine (transduce_lockstep (fun (tx : VoiceSender) (rx : VoiceReceiver) =>
    InStep tx.codec rx.codec) (fun pcm => pcm.length ≤ 65535) (fun _ _ => True) ?_ .new hlen).1
  intro tx rx pcm hstep hpcm
  refine ⟨?_, trivial⟩
  unfold VoiceSender.process
  rcases tx.dtx.observeVad (level.voiceActive pcm) with ⟨action, dtx⟩
  cases action with
  | voice => exact (hstep.voiceFrame hpcm).1
  | sid =>
    unfold VoiceReceiver.recv? VoiceReceiver.recv
    dsimp only
    rw [VoiceFrame.decode_encode]
    exact hstep
  | suppress => exact hstep

end LowBand.Lowbandd
