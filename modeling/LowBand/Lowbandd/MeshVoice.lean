import LowBand.Lib.Framing
import LowBand.Lib.Run
import LowBand.Lowbandd.MeshMix
import LowBand.Lowbandd.Voice
import Mathlib.Data.List.DropRight
import Mathlib.Data.List.FinRange
import Mathlib.Data.List.Induction

/-!
# The voice loop of a group call

`mesh_voice.rs` with the queues of `audio_io.rs`: the capture thread codes each frame once and sends
it to every peer, a thread for each peer decodes what arrives into a queue, and the mixer takes a
frame from each queue that has one and plays their sum. The steps of these threads, and the
callbacks of the microphone and the speaker, are the events of one machine, in any order. The mixer
looks at one queue at a time.

Only the capture thread takes from the microphone's queue, and what comes while it works waits for
its next pass, so a pass is one step.

The passes of the capture thread come to the same as cutting all samples at once (`uplink_run`), so
a peer is sent the packets of one stream (`mesh_uplink`). On the way down nothing is lost or doubled
between a peer's datagrams and the mixes (`waiting_run`), and between the mixes and the speaker
(`supply_run`); both together are `mesh_downlink`.
-/

namespace LowBand.Lowbandd

open Lib

/-! ## Queues of samples -/

/-- `SharedPcm::pop_into` for so many samples: how many there were, the samples with silence where
there were none, and the queue afterwards. -/
def popInto : ℕ → List Int16 → ℕ × List Int16 × List Int16
  | 0, pcm => (0, [], pcm)
  | n + 1, [] =>
    let (supplied, out, pcm) := popInto n []
    (supplied, 0 :: out, pcm)
  | n + 1, s :: pcm =>
    let (supplied, out, pcm) := popInto n pcm
    (supplied + 1, s :: out, pcm)

/-- The queue gives what it has, and silence after that. -/
theorem popInto_eq (n : ℕ) (pcm : List Int16) :
    popInto n pcm =
      (min n pcm.length, pcm.take n ++ List.replicate (n - pcm.length) 0, pcm.drop n) := by
  induction n generalizing pcm with
  | zero => simp [popInto]
  | succ n ih =>
    cases pcm with
    | nil => simp [popInto, ih, List.replicate_succ]
    | cons s pcm => simp [popInto, ih, Nat.add_min_add_right]

/-! ## The source -/

/-- `VOICE_SAMPLE_RATE`. -/
def voiceSampleRate : ℕ := 8000

/-- What the loop has from the devices and the sessions, and what it computes in floating point. -/
structure VoiceEnv (n : ℕ) where
  /-- The rate of the microphone. -/
  micHz : ℕ
  /-- The rate of the speaker. -/
  spkHz : ℕ
  /-- The level of a frame. -/
  level : Level
  /-- `resample`, from one rate to another. -/
  resample : List Int16 → ℕ → ℕ → List Int16
  /-- Whether the session with a peer can send the packet of this number. -/
  sendOk : Fin n → ℕ → Bool

/-- What the capture thread sends with. -/
structure Uplink (n : ℕ) where
  /-- The gate and the encoder. -/
  sender : VoiceSender
  /-- The peers whose sessions are up. -/
  senders : List (Fin n)
  /-- How many packets were made. -/
  sends : ℕ

/-- The state of the loop. -/
structure MeshVoice (n : ℕ) where
  /-- The samples of the microphone. -/
  micBuf : List Int16
  /-- The samples that the capture thread holds. -/
  devAcc : List Int16
  /-- What it sends with. -/
  uplink : Uplink n
  /-- The decoder of each peer. -/
  receivers : Fin n → VoiceReceiver
  /-- The samples of each peer. -/
  peerBufs : Fin n → List Int16
  /-- The peers whose queues the mixer has yet to look at in this pass. -/
  todo : List (Fin n)
  /-- The frames it has in this pass, each with the peer it is from. -/
  frames : List (Fin n × List Int16)
  /-- The samples for the speaker. -/
  spkBuf : List Int16

/-- What happens next. -/
inductive VoiceEvent (n : ℕ) where
  /-- The microphone delivers samples. -/
  | captured (pcm : List Int16)
  /-- A pass of the capture thread. -/
  | capturePass
  /-- A datagram of a peer arrives. -/
  | datagram (peer : Fin n) (bytes : List UInt8)
  /-- The mixer looks at the next queue, or ends its pass. -/
  | mixerStep
  /-- The speaker asks for so many samples. -/
  | speaker (samples : ℕ)

/-- What the loop does. -/
inductive VoiceOutput (n : ℕ) where
  /-- A packet is sent to a peer. -/
  | sent (peer : Fin n) (bytes : List UInt8)
  /-- Frames are mixed and queued for the speaker. -/
  | mixed (frames : List (Fin n × List Int16))
  /-- The speaker plays samples, so many of them from the queue. -/
  | played (supplied : ℕ) (pcm : List Int16)

namespace VoiceEnv

variable {n : ℕ} (env : VoiceEnv n)

/-- The samples of 20 ms at the microphone's rate. -/
def frameDev : ℕ := max (env.micHz / 50) 1

/-- A frame is coded, and its packet, if there is one, sent to each peer; a peer whose session fails
is dropped. -/
def sendFrame : Machine (Uplink n) (List Int16) (VoiceOutput n) := fun up chunk =>
  match up.sender.process env.level (env.resample chunk env.micHz voiceSampleRate) with
  | (none, sender) => ([], { up with sender })
  | (some bytes, sender) =>
    let kept := up.senders.filter (env.sendOk · up.sends)
    (kept.map (.sent · bytes), ⟨sender, kept, up.sends + 1⟩)

/-- The frames of a mixing pass as they are played. -/
def mixdown (frames : List (Fin n × List Int16)) : List Int16 :=
  env.resample (mix (frames.map Prod.snd)) voiceSampleRate env.spkHz

/-- `run`, by the steps of its threads. -/
def step : Machine (MeshVoice n) (VoiceEvent n) (VoiceOutput n)
  | v, .captured pcm => ([], { v with micBuf := v.micBuf ++ pcm })
  | v, .capturePass =>
    let (chunks, devAcc) := cut env.frameDev (v.devAcc ++ v.micBuf)
    (env.sendFrame.emitted v.uplink chunks,
      { v with micBuf := [], devAcc, uplink := env.sendFrame.finish v.uplink chunks })
  | v, .datagram peer bytes =>
    let (pcm, receiver) := (v.receivers peer).recv bytes
    ([], { v with
      receivers := Function.update v.receivers peer receiver
      peerBufs := Function.update v.peerBufs peer (v.peerBufs peer ++ pcm.getD []) })
  | v, .mixerStep =>
    match v.todo with
    | peer :: todo =>
      if frameSamples ≤ (v.peerBufs peer).length then
        let (_, frame, rest) := popInto frameSamples (v.peerBufs peer)
        ([], { v with
          todo
          frames := v.frames ++ [(peer, frame)]
          peerBufs := Function.update v.peerBufs peer rest })
      else ([], { v with todo })
    | [] =>
      if v.frames.isEmpty then ([], { v with todo := List.finRange n })
      else
        ([.mixed v.frames], { v with
          todo := List.finRange n
          frames := []
          spkBuf := v.spkBuf ++ env.mixdown v.frames })
  | v, .speaker samples =>
    let (supplied, pcm, spkBuf) := popInto samples v.spkBuf
    ([.played supplied pcm], { v with spkBuf })

end VoiceEnv

/-- The loop as it starts. -/
def MeshVoice.new (n : ℕ) : MeshVoice n where
  micBuf := []
  devAcc := []
  uplink := ⟨.new, List.finRange n, 0⟩
  receivers _ := .new
  peerBufs _ := []
  todo := List.finRange n
  frames := []
  spkBuf := []

/-! ## The way up -/

namespace VoiceEvent

variable {n : ℕ}

/-- The samples that an event brings from the microphone. -/
def pcm : VoiceEvent n → List Int16
  | captured pcm => pcm
  | _ => []

/-- The capture thread makes a pass. -/
def isPass : VoiceEvent n → Bool
  | capturePass => true
  | _ => false

/-- The datagram of a peer, if the event is one. -/
def ofPeer (peer : Fin n) : VoiceEvent n → Option (List UInt8)
  | datagram from_ bytes => if from_ = peer then some bytes else none
  | _ => none

end VoiceEvent

section Up

variable {n : ℕ}

/-- All samples of the microphone. -/
def captured (es : List (VoiceEvent n)) : List Int16 := es.flatMap VoiceEvent.pcm

/-- Those that came before the last pass of the capture thread. -/
def polled (es : List (VoiceEvent n)) : List Int16 := captured (es.rdropWhile (!·.isPass))

/-- The packet to a peer, if the output is one. -/
def VoiceOutput.toPeer (peer : Fin n) : VoiceOutput n → Option (List UInt8)
  | sent to_ bytes => if to_ = peer then some bytes else none
  | _ => none

/-- What a peer is sent, in order. -/
def sentTo (peer : Fin n) (outs : List (VoiceOutput n)) : List (List UInt8) :=
  outs.filterMap (·.toPeer peer)

/-- Everything that a peer is sent in two parts of a run. -/
theorem sentTo_append (peer : Fin n) (outs outs' : List (VoiceOutput n)) :
    sentTo peer (outs ++ outs') = sentTo peer outs ++ sentTo peer outs' :=
  List.filterMap_append

/-- A packet that goes to some peers, each listed once. -/
theorem sentTo_map {peers : List (Fin n)} (hnodup : peers.Nodup) (peer : Fin n)
    (bytes : List UInt8) :
    sentTo peer (peers.map (.sent · bytes)) = if peer ∈ peers then [bytes] else [] := by
  induction peers with
  | nil => rfl
  | cons p peers ih =>
    obtain ⟨hp, hnodup⟩ := List.nodup_cons.mp hnodup
    have hrest := ih hnodup
    unfold sentTo at hrest ⊢
    rw [List.map_cons, List.filterMap_cons, hrest]
    by_cases h : p = peer
    · subst h
      simp [VoiceOutput.toPeer, hp]
    · simp [VoiceOutput.toPeer, h, Ne.symm h]

namespace VoiceEnv

variable (env : VoiceEnv n)

/-- The packets that an encoder makes of frames of the microphone, one after another. -/
def packetsFrom (tx : VoiceSender) (chunks : List (List Int16)) : List (List UInt8) :=
  (transduce (VoiceSender.process env.level) tx
    (chunks.map (env.resample · env.micHz voiceSampleRate))).1.filterMap id

/-- The packets from number `k` on, up to the first that the session with a peer cannot send. -/
def reached (peer : Fin n) : ℕ → List (List UInt8) → List (List UInt8)
  | _, [] => []
  | k, bytes :: packets =>
    if env.sendOk peer k then bytes :: reached peer (k + 1) packets else []

/-- The packet of the first frame, if there is one, and those of the others. -/
theorem packetsFrom_cons {tx tx' : VoiceSender} {packet : Option (List UInt8)} {chunk : List Int16}
    (hframe : tx.process env.level (env.resample chunk env.micHz voiceSampleRate) = (packet, tx'))
    (chunks : List (List Int16)) :
    env.packetsFrom tx (chunk :: chunks) = packet.toList ++ env.packetsFrom tx' chunks := by
  unfold packetsFrom
  rw [List.map_cons, transduce, hframe]
  cases packet <;> rfl

/-- What a peer is sent of some frames: the packets, as far as its own session carries them. -/
theorem sentTo_emitted (peer : Fin n) {up : Uplink n} (hnodup : up.senders.Nodup)
    (chunks : List (List Int16)) :
    sentTo peer (env.sendFrame.emitted up chunks) =
      if peer ∈ up.senders then
        env.reached peer up.sends (env.packetsFrom up.sender chunks) else [] := by
  -- By induction on the chunks: each one may drop senders whose send fails.
  induction chunks generalizing up with
  | nil => simp [Machine.emitted, sentTo, packetsFrom, transduce, reached]
  | cons chunk chunks ih =>
    rw [Machine.emitted, sentTo_append]
    cases hframe : up.sender.process env.level (env.resample chunk env.micHz voiceSampleRate) with
    | mk packet sender =>
      rw [env.packetsFrom_cons hframe]
      cases packet with
      -- The gate keeps the frame back, and the links are not touched.
      | none =>
        have hstep : env.sendFrame up chunk = ([], { up with sender }) := by
          simp only [sendFrame, hframe]
        rw [hstep]
        exact ih hnodup
      | some bytes =>
        let kept := up.senders.filter (env.sendOk · up.sends)
        have hkept : kept.Nodup := hnodup.filter _
        have hstep : env.sendFrame up chunk =
            (kept.map (.sent · bytes), ⟨sender, kept, up.sends + 1⟩) := by
          simp only [sendFrame, hframe, kept]
        have hrest := @ih ⟨sender, kept, up.sends + 1⟩ hkept
        have hmem : peer ∈ kept ↔ peer ∈ up.senders ∧ env.sendOk peer up.sends :=
          List.mem_filter
        rw [hstep, hrest, sentTo_map hkept]
        simp only [hmem, Option.toList_some, List.singleton_append, reached]
        -- The peer hears the packet if it is still linked and its send succeeds.
        by_cases hpeer : peer ∈ up.senders <;> by_cases hok : env.sendOk peer up.sends <;>
          simp [hpeer, hok]

/-- There is at least a sample to a frame. -/
theorem frameDev_pos : 0 < env.frameDev := Nat.lt_of_lt_of_le Nat.one_pos (Nat.le_max_right _ _)

/-- The other threads do not touch what the capture thread works with, but for the microphone. -/
theorem step_of_not_isPass {e : VoiceEvent n} (he : e.isPass = false) (v : MeshVoice n) :
    (env.step v e).2.micBuf = v.micBuf ++ e.pcm ∧ (env.step v e).2.devAcc = v.devAcc ∧
      (env.step v e).2.uplink = v.uplink ∧ ∀ peer, sentTo peer (env.step v e).1 = [] := by
  have hkeep : v.micBuf = v.micBuf ++ [] := (List.append_nil _).symm
  cases e with
  | captured pcm => exact ⟨rfl, rfl, rfl, fun _ => rfl⟩
  | capturePass => cases he
  | datagram peer bytes => exact ⟨hkeep, rfl, rfl, fun _ => rfl⟩
  | mixerStep =>
    unfold step
    dsimp only
    split
    · split_ifs
      · exact ⟨hkeep, rfl, rfl, fun _ => rfl⟩
      · exact ⟨hkeep, rfl, rfl, fun _ => rfl⟩
    · split_ifs
      · exact ⟨hkeep, rfl, rfl, fun _ => rfl⟩
      · exact ⟨hkeep, rfl, rfl, fun _ => rfl⟩
  | speaker samples => exact ⟨hkeep, rfl, rfl, fun _ => rfl⟩

/-- What the passes of the capture thread come to: those of the frames of all samples that it took,
however they were split between the passes. -/
theorem uplink_run (es : List (VoiceEvent n)) :
    let v := env.step.finish (.new n) es
    let cuts := cut env.frameDev (polled es)
    polled es ++ v.micBuf = captured es ∧ v.devAcc = cuts.2 ∧
      v.uplink = env.sendFrame.finish (MeshVoice.new n).uplink cuts.1 ∧
      ∀ peer, sentTo peer (env.step.emitted (.new n) es) =
        sentTo peer (env.sendFrame.emitted (MeshVoice.new n).uplink cuts.1) := by
  -- By induction on the events, the last one first: what is held is what no pass has taken.
  induction es using List.reverseRecOn with
  | nil =>
    have hnone : cut env.frameDev (polled ([] : List (VoiceEvent n))) = ([], []) :=
      cut_of_lt env.frameDev_pos
    dsimp only
    rw [hnone]
    exact ⟨rfl, rfl, rfl, fun _ => rfl⟩
  | append_singleton es e ih =>
    obtain ⟨hmic, hacc, huplink, hsent⟩ := ih
    dsimp only at hmic hacc huplink hsent ⊢
    rw [Machine.finish_append, Machine.emitted_append]
    generalize env.step.finish (.new n) es = v at *
    have hcaptured : captured (es ++ [e]) = captured es ++ e.pcm := by
      simp [captured]
    change polled (es ++ [e]) ++ (env.step v e).2.micBuf = _ ∧ (env.step v e).2.devAcc = _ ∧
      (env.step v e).2.uplink = _ ∧ ∀ peer, sentTo peer (_ ++ ((env.step v e).1 ++ [])) = _
    simp only [List.append_nil, sentTo_append]
    unfold polled at hmic hacc huplink hsent ⊢
    rw [List.rdropWhile_concat]
    by_cases he : e.isPass = true
    · -- A pass takes all that is there: what it holds and what has come are cut as one.
      have hpass : e = .capturePass := by
        cases e <;> first | rfl | cases he
      subst hpass
      have hall : captured (es ++ [.capturePass]) = captured es :=
        hcaptured.trans (List.append_nil _)
      simp only [VoiceEvent.isPass, Bool.not_true, Bool.false_eq_true, if_false, hall]
      rw [← hmic, cut_append env.frameDev_pos, ← hacc]
      refine ⟨List.append_nil _, rfl, ?_, fun peer => ?_⟩
      · rw [Machine.finish_append, ← huplink]
        rfl
      · rw [Machine.emitted_append, sentTo_append, hsent, ← huplink]
        rfl
    -- Any other event only adds to the samples that wait.
    · have hnot : e.isPass = false := Bool.eq_false_iff.mpr he
      obtain ⟨hmic', hacc', huplink', hsent'⟩ := env.step_of_not_isPass hnot v
      simp only [hnot, Bool.not_false, if_true]
      rw [hmic', hacc', huplink', hcaptured, ← hmic, List.append_assoc]
      refine ⟨rfl, hacc, huplink, fun peer => ?_⟩
      rw [hsent', List.append_nil, hsent]

/-- However the samples of the microphone come in pieces, whenever the capture thread makes its
passes and whatever the other threads do in between: all samples up to the last pass were cut into
frames of 20 ms as one stream, the frames coded by one encoder, and each peer was sent the packets,
in order, up to the first that its own session could not send. -/
theorem mesh_uplink (es : List (VoiceEvent n)) (peer : Fin n) :
    let v := env.step.finish (.new n) es
    let frames := (cut env.frameDev (polled es)).1
    sentTo peer (env.step.emitted (.new n) es) =
        env.reached peer 0 (env.packetsFrom .new frames) ∧
      polled es ++ v.micBuf = captured es ∧
      frames.flatten ++ v.devAcc = polled es ∧ v.devAcc.length < env.frameDev := by
  intro v frames
  obtain ⟨hmic, hacc, -, hsent⟩ := env.uplink_run es
  obtain ⟨hflatten, -, hrest⟩ := cut_spec env.frameDev_pos (polled es)
  refine ⟨?_, hmic, hacc ▸ hflatten, hacc ▸ hrest⟩
  have hall : (MeshVoice.new n).uplink.senders.Nodup := List.nodup_finRange n
  have hmem : peer ∈ (MeshVoice.new n).uplink.senders := List.mem_finRange peer
  rw [hsent, env.sentTo_emitted peer hall, if_pos hmem]
  rfl

end VoiceEnv

end Up

/-! ## The way down -/

section Down

variable {n : ℕ}

/-- The samples that a decoder makes of datagrams. -/
def decodedFrom (rx : VoiceReceiver) (datagrams : List (List UInt8)) : List Int16 :=
  (transduce VoiceReceiver.recv rx datagrams).1.flatMap (·.getD [])

/-- The frames of one peer, in order. -/
def framesOf (peer : Fin n) (frames : List (Fin n × List Int16)) : List (List Int16) :=
  (frames.filter (·.1 = peer)).map Prod.snd

/-- The frames of a peer in two rows follow each other. -/
theorem framesOf_append (peer : Fin n) (frames frames' : List (Fin n × List Int16)) :
    framesOf peer (frames ++ frames') = framesOf peer frames ++ framesOf peer frames' := by
  simp [framesOf]

/-- The frames of another peer. -/
theorem framesOf_single (peer p : Fin n) (frame : List Int16) :
    framesOf peer [(p, frame)] = if p = peer then [frame] else [] := by
  unfold framesOf
  split_ifs with h <;> simp [h]

namespace VoiceOutput

/-- The frames that are mixed, if the output is a mix. -/
def mix? : VoiceOutput n → Option (List (Fin n × List Int16))
  | mixed frames => some frames
  | _ => none

/-- The samples that the speaker plays from the queue. -/
def supply : VoiceOutput n → List Int16
  | played supplied pcm => pcm.take supplied
  | _ => []

end VoiceOutput

/-- The passes of the mixer that had frames, in order. -/
def mixes (outs : List (VoiceOutput n)) : List (List (Fin n × List Int16)) :=
  outs.filterMap VoiceOutput.mix?

/-- The mixes of two rows of outputs follow each other. -/
theorem mixes_append (outs outs' : List (VoiceOutput n)) :
    mixes (outs ++ outs') = mixes outs ++ mixes outs' :=
  List.filterMap_append

/-- The datagrams of a peer, in order. -/
def datagramsOf (peer : Fin n) (es : List (VoiceEvent n)) : List (List UInt8) :=
  es.filterMap (·.ofPeer peer)

/-- A decoder goes on with what it has learnt. -/
theorem decodedFrom_append (rx : VoiceReceiver) (datagrams datagrams' : List (List UInt8)) :
    decodedFrom rx (datagrams ++ datagrams') = decodedFrom rx datagrams ++
      decodedFrom (transduce VoiceReceiver.recv rx datagrams).2 datagrams' := by
  induction datagrams generalizing rx with
  | nil => rfl
  | cons bytes datagrams ih =>
    have hrest := ih (rx.recv bytes).2
    unfold decodedFrom at hrest ⊢
    rw [List.cons_append, transduce, transduce, List.flatMap_cons, List.flatMap_cons, hrest,
      List.append_assoc]

namespace MeshVoice

/-- The samples of a peer that are in the mixer's hands or in the queue. -/
def waiting (v : MeshVoice n) (peer : Fin n) : List Int16 :=
  (framesOf peer v.frames).flatten ++ v.peerBufs peer

/-- The mixer has whole frames, and they and the queues it has yet to look at are of different
peers, in their order. -/
structure Mixing (v : MeshVoice n) : Prop where
  order : (v.frames.map Prod.fst ++ v.todo).Sublist (List.finRange n)
  whole : ∀ frame ∈ v.frames, frame.2.length = frameSamples

/-- It starts with all queues before it. -/
theorem Mixing.new : (MeshVoice.new n).Mixing :=
  ⟨List.Sublist.refl _, List.forall_mem_nil _⟩

end MeshVoice

/-- A pass of the mixer has a frame, and at most one of each peer, all of 20 ms. -/
structure WholePass (frames : List (Fin n × List Int16)) : Prop where
  ne_nil : frames ≠ []
  order : (frames.map Prod.fst).Sublist (List.finRange n)
  whole : ∀ frame ∈ frames, frame.2.length = frameSamples

namespace VoiceEnv

variable (env : VoiceEnv n)

/-- A frame of the microphone is sent, and nothing else. -/
theorem sent_of_mem_emitted {up : Uplink n} {chunks : List (List Int16)} :
    ∀ o ∈ env.sendFrame.emitted up chunks, ∃ peer bytes, o = .sent peer bytes := by
  refine Machine.forall_mem_emitted (fun _ => True) (fun up chunk _ => ⟨trivial, ?_⟩) trivial
  unfold sendFrame
  split
  · exact List.forall_mem_nil _
  · intro o ho
    obtain ⟨peer, -, rfl⟩ := List.mem_map.mp ho
    exact ⟨peer, _, rfl⟩

/-- So it has no mixes. -/
theorem mixes_emitted (up : Uplink n) (chunks : List (List Int16)) :
    mixes (env.sendFrame.emitted up chunks) = [] := by
  refine List.filterMap_eq_nil_iff.mpr fun o ho => ?_
  obtain ⟨peer, bytes, rfl⟩ := env.sent_of_mem_emitted o ho
  rfl

/-- What one step does with the samples of a peer: they stay in their order, those of a datagram
come to their end, and those of a mix are gone from their front. -/
theorem step_waiting (v : MeshVoice n) (e : VoiceEvent n) (peer : Fin n) :
    (framesOf peer (mixes (env.step v e).1).flatten).flatten ++ (env.step v e).2.waiting peer =
        v.waiting peer ++ decodedFrom (v.receivers peer) (e.ofPeer peer).toList ∧
      (env.step v e).2.receivers peer =
        (transduce VoiceReceiver.recv (v.receivers peer) (e.ofPeer peer).toList).2 := by
  have hsame : v.waiting peer = v.waiting peer ++ [] := (List.append_nil _).symm
  cases e with
  | captured pcm => exact ⟨hsame, rfl⟩
  | capturePass =>
    refine ⟨?_, rfl⟩
    change (framesOf peer (mixes (env.sendFrame.emitted _ _)).flatten).flatten ++ _ = _
    rw [mixes_emitted]
    exact hsame
  -- What the peer sent is decoded and waits behind what was there.
  | datagram p bytes =>
    by_cases hp : p = peer
    · subst hp
      simp [step, mixes, VoiceOutput.mix?, MeshVoice.waiting, VoiceEvent.ofPeer, decodedFrom,
        transduce, framesOf]
    · simp [step, mixes, MeshVoice.waiting, VoiceEvent.ofPeer, decodedFrom, transduce, framesOf,
        hp, Function.update_of_ne (Ne.symm hp)]
  -- The mixer moves frames of the peer without changing their order.
  | mixerStep =>
    refine ⟨?_, ?_⟩
    · unfold step
      dsimp only
      split
      · next p todo htodo =>
        split_ifs with hframe
        · -- A frame goes from the queue into the mixer's hands.
          rw [popInto_eq, Nat.sub_eq_zero_of_le hframe]
          simp only [MeshVoice.waiting, framesOf_append, framesOf_single, VoiceEvent.ofPeer]
          by_cases hp : p = peer
          · subst hp
            simp [mixes, framesOf, decodedFrom, transduce]
          · simp [mixes, framesOf, decodedFrom, transduce, hp, Function.update_of_ne (Ne.symm hp)]
        · exact hsame
      · split_ifs
        · exact hsame
        · -- The frames of the pass are mixed.
          simp [mixes, VoiceOutput.mix?, MeshVoice.waiting, VoiceEvent.ofPeer, framesOf,
            decodedFrom, transduce]
    · unfold step
      dsimp only
      split <;> split_ifs <;> rfl
  | speaker samples => exact ⟨hsame, rfl⟩

/-- Nothing of a peer is lost between its datagrams and the mixes, and nothing comes twice or out of
order. -/
theorem waiting_run (v : MeshVoice n) (es : List (VoiceEvent n)) (peer : Fin n) :
    (framesOf peer (mixes (env.step.emitted v es)).flatten).flatten ++
        (env.step.finish v es).waiting peer =
      v.waiting peer ++ decodedFrom (v.receivers peer) (datagramsOf peer es) := by
  induction es generalizing v with
  | nil => exact (List.append_nil _).symm
  | cons e es ih =>
    obtain ⟨hstep, hreceiver⟩ := env.step_waiting v e peer
    have hrest := ih (env.step v e).2
    have hdatagrams : datagramsOf peer (e :: es) =
        (e.ofPeer peer).toList ++ datagramsOf peer es := by
      unfold datagramsOf
      rw [List.filterMap_cons]
      cases e.ofPeer peer <;> rfl
    rw [Machine.emitted, mixes_append, List.flatten_append, framesOf_append, List.flatten_append,
      hdatagrams, decodedFrom_append, ← List.append_assoc, ← hstep, ← hreceiver, List.append_assoc,
      List.append_assoc]
    exact congrArg _ hrest

/-- What the mixer holds stays in order, and what it mixes is a whole pass. -/
theorem step_mixing {v : MeshVoice n} (h : v.Mixing) (e : VoiceEvent n) :
    (env.step v e).2.Mixing ∧ ∀ o ∈ (env.step v e).1, ∀ frames, o = .mixed frames →
      WholePass frames := by
  obtain ⟨horder, hwhole⟩ := h
  cases e with
  | captured pcm => exact ⟨⟨horder, hwhole⟩, List.forall_mem_nil _⟩
  | capturePass =>
    refine ⟨⟨horder, hwhole⟩, fun o ho frames hmixed => ?_⟩
    obtain ⟨peer, bytes, rfl⟩ := env.sent_of_mem_emitted o ho
    cases hmixed
  | datagram p bytes => exact ⟨⟨horder, hwhole⟩, List.forall_mem_nil _⟩
  | mixerStep =>
    unfold step
    dsimp only
    split
    -- The next peer gives a whole frame or is left out of this pass.
    · next p todo htodo =>
      rw [htodo] at horder
      split_ifs with hframe
      · rw [popInto_eq, Nat.sub_eq_zero_of_le hframe]
        refine ⟨⟨?_, ?_⟩, List.forall_mem_nil _⟩
        · simpa using horder
        · refine List.forall_mem_append.mpr ⟨hwhole, List.forall_mem_singleton.mpr ?_⟩
          simpa using hframe
      · have hfewer : (v.frames.map Prod.fst ++ todo).Sublist
            (v.frames.map Prod.fst ++ p :: todo) :=
          (List.sublist_cons_self p todo).append_left _
        exact ⟨⟨hfewer.trans horder, hwhole⟩, List.forall_mem_nil _⟩
    -- All peers have been asked, so the pass ends.
    · next htodo =>
      split_ifs with hempty
      · have hnone : v.frames = [] := List.isEmpty_iff.mp hempty
        refine ⟨⟨?_, hwhole⟩, List.forall_mem_nil _⟩
        rw [hnone]
        exact List.Sublist.refl _
      · refine ⟨⟨List.Sublist.refl _, List.forall_mem_nil _⟩, ?_⟩
        rw [List.forall_mem_singleton]
        rintro frames ⟨⟩
        rw [htodo, List.append_nil] at horder
        exact ⟨fun hnil => hempty (List.isEmpty_iff.mpr hnil), horder, hwhole⟩
  | speaker samples =>
    refine ⟨⟨horder, hwhole⟩, ?_⟩
    rw [step, List.forall_mem_singleton]
    intro frames hmixed
    cases hmixed

/-- What one step does with the samples for the speaker. -/
theorem step_supply (v : MeshVoice n) (e : VoiceEvent n) :
    (env.step v e).1.flatMap VoiceOutput.supply ++ (env.step v e).2.spkBuf =
      v.spkBuf ++ (mixes (env.step v e).1).flatMap env.mixdown := by
  have hsame : v.spkBuf = v.spkBuf ++ [] := (List.append_nil _).symm
  cases e with
  | captured pcm => exact hsame
  | capturePass =>
    have hnone : (env.sendFrame.emitted v.uplink
        (cut env.frameDev (v.devAcc ++ v.micBuf)).1).flatMap VoiceOutput.supply = [] := by
      refine List.flatMap_eq_nil_iff.mpr fun o ho => ?_
      obtain ⟨peer, bytes, rfl⟩ := env.sent_of_mem_emitted o ho
      rfl
    unfold step
    dsimp only
    rw [hnone, mixes_emitted]
    exact hsame
  | datagram p bytes => exact hsame
  | mixerStep =>
    unfold step
    dsimp only
    split
    · split_ifs
      · exact hsame
      · exact hsame
    · split_ifs
      · exact hsame
      · simp [VoiceOutput.supply, mixes, VoiceOutput.mix?]
  | speaker samples =>
    unfold step
    dsimp only
    rw [popInto_eq]
    -- The first samples of what is played are those of the queue.
    have hsupply : (v.spkBuf.take samples ++
        List.replicate (samples - v.spkBuf.length) 0).take (min samples v.spkBuf.length) =
        v.spkBuf.take samples :=
      List.take_left' (List.length_take ..)
    simp [VoiceOutput.supply, hsupply, mixes, VoiceOutput.mix?]

/-- What was mixed is played, each sample once and in order. -/
theorem supply_run (v : MeshVoice n) (es : List (VoiceEvent n)) :
    (env.step.emitted v es).flatMap VoiceOutput.supply ++ (env.step.finish v es).spkBuf =
      v.spkBuf ++ (mixes (env.step.emitted v es)).flatMap env.mixdown := by
  induction es generalizing v with
  | nil => exact (List.append_nil _).symm
  | cons e es ih =>
    have hstep := env.step_supply v e
    have hrest := ih (env.step v e).2
    rw [Machine.emitted, mixes_append, List.flatMap_append, List.flatMap_append,
      ← List.append_assoc, ← hstep, List.append_assoc, List.append_assoc]
    exact congrArg _ hrest

/-- However datagrams, the threads of the peers, the mixer and the speaker interleave: what was
mixed of a peer, with the frame in the mixer's hands, are the first frames of 20 ms of what its
datagrams alone are decoded to, and the rest waits in its queue; each mix has a frame, and at most
one of each peer; the speaker has played the mixes, in order, but for what is in its queue, and is
given silence only where this queue is empty. -/
theorem mesh_downlink (es : List (VoiceEvent n)) :
    let v := env.step.finish (.new n) es
    let outs := env.step.emitted (.new n) es
    (∀ peer,
      let frames := framesOf peer ((mixes outs).flatten ++ v.frames)
      let decoded := decodedFrom .new (datagramsOf peer es)
      frames = (cut frameSamples decoded).1.take frames.length ∧
        frames.flatten ++ v.peerBufs peer = decoded) ∧
      (∀ frames ∈ mixes outs, WholePass frames) ∧
      outs.flatMap VoiceOutput.supply ++ v.spkBuf = (mixes outs).flatMap env.mixdown ∧
      ∀ samples, (env.step v (.speaker samples)).1 =
        [.played (min samples v.spkBuf.length)
          (v.spkBuf.take samples ++ List.replicate (samples - v.spkBuf.length) 0)] := by
  intro v outs
  -- Every pass that was mixed came out of a state with whole frames.
  have hpasses : ∀ frames ∈ mixes outs, WholePass frames := by
    intro frames hframes
    obtain ⟨o, ho, hmix⟩ := List.mem_filterMap.mp hframes
    cases o with
    | mixed frames' =>
      cases hmix
      exact Machine.forall_mem_emitted MeshVoice.Mixing (fun v e h => env.step_mixing h e) .new
        _ ho frames rfl
    | sent peer bytes => cases hmix
    | played supplied pcm => cases hmix
  have hkeep : ∀ (v : MeshVoice n) e, v.Mixing → (env.step v e).2.Mixing :=
    fun v e h => (env.step_mixing h e).1
  have hmixing : v.Mixing := run_induction hkeep es .new
  refine ⟨fun peer => ?_, hpasses, env.supply_run (.new n) es, fun samples => ?_⟩
  · have hwaiting := env.waiting_run (.new n) es peer
    -- What left the queue and what waits are all that was decoded.
    have hall : (framesOf peer ((mixes outs).flatten ++ v.frames)).flatten ++ v.peerBufs peer =
        decodedFrom .new (datagramsOf peer es) := by
      rw [framesOf_append, List.flatten_append, List.append_assoc]
      exact hwaiting
    have hwhole : ∀ frame ∈ framesOf peer ((mixes outs).flatten ++ v.frames),
        frame.length = frameSamples := by
      intro frame hframe
      obtain ⟨f, hf, rfl⟩ := List.mem_map.mp hframe
      rcases List.mem_append.mp (List.mem_of_mem_filter hf) with hmixed | hheld
      · obtain ⟨pass, hpass, hf⟩ := List.mem_flatten.mp hmixed
        exact (hpasses pass hpass).whole f hf
      · exact hmixing.whole f hheld
    dsimp only
    refine ⟨?_, hall⟩
    rw [← hall]
    exact eq_take_cut (by decide) hwhole
  · show [VoiceOutput.played _ _] = _
    rw [popInto_eq]

end VoiceEnv

end Down

end LowBand.Lowbandd
