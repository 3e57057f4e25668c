import LowBand.Lib.Run
import LowBand.Lib.Streak
import LowBand.Lowbandd.Voice

/-!
# Silence on the line

`dtx.rs` at both ends. `DtxSender` is the gate of `Voice.lean` with the state that its accounting
reads; where it is after some frames is a formula in the number of silent ones at their end
(`finish_observe`), and `silence_bps` says that a silence costs `DTX_SILENCE_BPS`, to within one
packet.

`DtxReceiver` has to tell a slot that the sender left empty from a packet that was lost, and all it
knows is the last packet that arrived. `receiver_agrees_iff` says when it is right.
-/

namespace LowBand.Lowbandd

open Lib

/-- `DtxState`. -/
inductive DtxState where
  /-- Frames are sent, or the hangover is not over. -/
  | voice
  /-- Only comfort noise is sent. -/
  | silence
deriving DecidableEq

/-- `DTX_SID_BYTES`. -/
def dtxSidBytes : ℕ := 5

/-- `DTX_SILENCE_BPS`. -/
def dtxSilenceBps : ℕ := dtxSidBytes * 8 * 1000 / (dtxSidIntervalFrames * 20)

/-! ## The sender -/

/-- `DtxEncoder`: the gate with its state. -/
structure DtxSender where
  /-- The gate. -/
  gate : DtxEncoder
  /-- The state. -/
  state : DtxState

namespace DtxSender

/-- `DtxEncoder::new`. -/
def new : DtxSender := ⟨.new, .voice⟩

/-- `observe_vad`. -/
def observeVad (tx : DtxSender) (voiceActive : Bool) : DtxAction × DtxSender where
  fst := (tx.gate.observeVad voiceActive).1
  snd.gate := (tx.gate.observeVad voiceActive).2
  snd.state :=
    if voiceActive then .voice
    else if tx.gate.hangoverRemaining > 0 then tx.state
    else .silence

/-- `effective_audio_bps`. -/
def effectiveAudioBps (tx : DtxSender) (voiceBps : ℕ) : ℕ :=
  match tx.state with
  | .voice => voiceBps
  | .silence => dtxSilenceBps

/-- `silence_frame_count`. -/
def silenceFrameCount (tx : DtxSender) : ℕ := tx.gate.silenceFrames

/-- The sender over a run of decisions. -/
def observe : Machine DtxSender Bool DtxAction :=
  fun tx v => ([(tx.observeVad v).1], (tx.observeVad v).2)

/-- What is done with a frame when this many frames in a row, up to it, were silent. -/
def actionAfter (silent : ℕ) : DtxAction :=
  if silent ≤ dtxHangoverFrames then .voice
  else if (silent - dtxHangoverFrames - 1) % dtxSidIntervalFrames = 0 then .sid
  else .suppress

/-- The sender when this many frames in a row were silent. -/
def after (silent : ℕ) : DtxSender where
  gate := ⟨dtxHangoverFrames - silent, silent - dtxHangoverFrames⟩
  state := if silent ≤ dtxHangoverFrames then .voice else .silence

/-- One frame, when this many frames in a row were silent before it. -/
theorem observeVad_after (silent : ℕ) (v : Bool) :
    (after silent).observeVad v =
      (actionAfter (if v then 0 else silent + 1), after (if v then 0 else silent + 1)) := by
  cases v with
  | true => rfl
  | false =>
    have hcases : silent < dtxHangoverFrames ∨ dtxHangoverFrames ≤ silent := lt_or_ge _ _
    rcases hcases with hlt | hge
    · -- The hangover takes the frame.
      have hleft : dtxHangoverFrames - silent > 0 := by omega
      have hzero : silent - dtxHangoverFrames = silent + 1 - dtxHangoverFrames := by omega
      simp [observeVad, DtxEncoder.observeVad, after, actionAfter, hleft, hlt.le, hzero,
        Nat.succ_le_of_lt hlt, Nat.sub_sub]
    -- The hangover is over, and the count of silent frames goes on.
    · have hover : dtxHangoverFrames - silent = 0 := by omega
      have hover' : dtxHangoverFrames - (silent + 1) = 0 := by omega
      have hnext : ¬ silent + 1 ≤ dtxHangoverFrames := by omega
      have hframes : silent - dtxHangoverFrames + 1 = silent + 1 - dtxHangoverFrames := by omega
      have hidx : silent + 1 - dtxHangoverFrames - 1 = silent - dtxHangoverFrames := by omega
      simp [observeVad, DtxEncoder.observeVad, after, actionAfter, hover, hover', hnext, hframes,
        hidx]

/-- After any decisions the sender is where the silent frames at their end put it. -/
theorem finish_observe (vad : List Bool) : observe.finish new vad = after (streak not vad) := by
  induction vad using List.reverseRecOn with
  | nil => rfl
  | append_singleton vad v ih =>
    rw [Machine.finish_append, ih, streak_concat]
    show ((after _).observeVad v).2 = _
    rw [observeVad_after]
    cases v <;> rfl

/-- The sender after silent frames. -/
theorem finish_silent (silent n : ℕ) :
    observe.finish (after silent) (List.replicate n false) = after (silent + n) := by
  induction n generalizing silent with
  | zero => rfl
  | succ n ih =>
    show observe.finish ((after silent).observeVad false).2 (List.replicate n false) = _
    rw [observeVad_after]
    show observe.finish (after (silent + 1)) (List.replicate n false) = _
    rw [ih, Nat.add_right_comm]
    rfl

/-- One more silent frame. -/
theorem emitted_silent_succ (silent n : ℕ) :
    observe.emitted (after silent) (List.replicate (n + 1) false) =
      observe.emitted (after silent) (List.replicate n false) ++
        [actionAfter (silent + n + 1)] := by
  rw [List.replicate_succ', Machine.emitted_append, finish_silent]
  show _ ++ ([((after (silent + n)).observeVad false).1] ++ []) = _
  rw [observeVad_after]
  rfl

/-- What a silence is worth: the frames of the hangover, then one packet in each interval. -/
theorem count_silent (m : ℕ) :
    let sent := observe.emitted (after 0) (List.replicate (dtxHangoverFrames + m) false)
    sent.count .voice = dtxHangoverFrames ∧
      sent.count .sid = (m + (dtxSidIntervalFrames - 1)) / dtxSidIntervalFrames := by
  induction m with
  | zero => decide
  | succ m ih =>
    obtain ⟨hvoice, hsid⟩ := ih
    dsimp only at hvoice hsid ⊢
    rw [← Nat.add_assoc, emitted_silent_succ, List.count_append, List.count_append, hvoice, hsid]
    have hover : ¬ 0 + (dtxHangoverFrames + m) + 1 ≤ dtxHangoverFrames := by omega
    have hidx : 0 + (dtxHangoverFrames + m) + 1 - dtxHangoverFrames - 1 = m := by omega
    rw [actionAfter, if_neg hover, hidx]
    unfold dtxSidIntervalFrames
    split_ifs with hm
    · simp
      omega
    · simp
      omega

/-- A silence of `m` frames past the hangover, after any decisions of which the last, if there is
one, was voice: the frames of the hangover are sent, then one packet of comfort noise in each
interval, whose bits are those of `DTX_SILENCE_BPS` over the `20 * m` milliseconds, and less than
one packet more. It is the rate the accounting reads, and it counts the `m` frames. -/
theorem silence_bps (vad : List Bool) (hvad : streak not vad = 0) (m : ℕ) (voiceBps : ℕ) :
    let silence := List.replicate (dtxHangoverFrames + m) false
    let sent := observe.emitted (observe.finish new vad) silence
    let last := observe.finish new (vad ++ silence)
    sent.count .voice = dtxHangoverFrames ∧
      dtxSilenceBps * (20 * m) ≤ sent.count .sid * (dtxSidBytes * 8) * 1000 ∧
      sent.count .sid * (dtxSidBytes * 8) * 1000 <
        dtxSilenceBps * (20 * m) + dtxSidBytes * 8 * 1000 ∧
      last.silenceFrameCount = m ∧
      last.effectiveAudioBps voiceBps = if m = 0 then voiceBps else dtxSilenceBps := by
  -- A voice frame resets the sender, whatever came before it.
  have hstart : observe.finish new vad = after 0 := by rw [finish_observe, hvad]
  have hlast : observe.finish new (vad ++ List.replicate (dtxHangoverFrames + m) false) =
      after (dtxHangoverFrames + m) := by
    rw [Machine.finish_append, hstart, finish_silent, Nat.zero_add]
  obtain ⟨hvoice, hsid⟩ := count_silent m
  have hbps : dtxSilenceBps = 100 := rfl
  dsimp only at hvoice hsid ⊢
  rw [hstart, hlast, hvoice, hsid, hbps]
  unfold dtxSidIntervalFrames dtxSidBytes
  refine ⟨rfl, by omega, by omega, Nat.add_sub_cancel_left _ _, ?_⟩
  -- Without a silent frame behind the hangover the voice rate still holds.
  by_cases hm : m = 0
  · rw [if_pos hm, hm]
    rfl
  · have hover : ¬ dtxHangoverFrames + m ≤ dtxHangoverFrames := by omega
    rw [if_neg hm, effectiveAudioBps, after, if_neg hover, hbps]

/-- A silence of two intervals and a frame, after decisions that go to and fro and end in voice. -/
theorem silence_bps_after_voice :
    let vad := [true, false, false, true, false, true, true]
    streak not vad = 0 ∧
      let sent := observe.emitted (observe.finish new vad) (List.replicate (8 + 41) false)
      sent.count .voice = 8 ∧ 100 * (20 * 41) ≤ sent.count .sid * 40 * 1000 ∧
        sent.count .sid * 40 * 1000 < 100 * (20 * 41) + 40 * 1000 := by
  intro vad
  have hvad : streak not vad = 0 := by decide
  obtain ⟨hvoice, hleast, hmost, -⟩ := silence_bps vad hvad 41 24000
  exact ⟨hvad, hvoice, hleast, hmost⟩

end DtxSender

/-! ## The receiver -/

/-- `DtxReceiver`. -/
structure DtxReceiver where
  /-- The state. -/
  state : DtxState

namespace DtxReceiver

/-- `DtxReceiver::new`. -/
def new : DtxReceiver := ⟨.voice⟩

/-- `observe_packet`. -/
def observePacket (_ : DtxReceiver) (isSid : Bool) : DtxReceiver :=
  ⟨if isSid then .silence else .voice⟩

/-- `tick_no_packet`: comfort noise is due. -/
def tickNoPacket (rx : DtxReceiver) : Bool := rx.state = .silence

end DtxReceiver

/-- What the two ends do in one slot. -/
structure Slot where
  /-- What the sender does. -/
  action : DtxAction
  /-- The packet that was sent, if any, arrives. -/
  arrives : Bool
  /-- What the receiver takes an empty slot for: comfort noise or a loss. -/
  comfort : Option Bool

namespace Slot

/-- A packet is sent. -/
def sends (slot : Slot) : Bool := slot.action ≠ .suppress

/-- A packet arrives. -/
def receives (slot : Slot) : Bool := slot.sends && slot.arrives

end Slot

/-- The two ends and the line between them: of each slot there is the decision of the sender, and
whether the line would carry a packet. -/
def dtxLine : Machine (DtxSender × DtxReceiver) (Bool × Bool) Slot
  | (tx, rx), (voiceActive, carries) =>
    let (action, tx) := tx.observeVad voiceActive
    if action ≠ .suppress ∧ carries then
      ([⟨action, carries, none⟩], (tx, rx.observePacket (action = .sid)))
    else ([⟨action, carries, some rx.tickNoPacket⟩], (tx, rx))

/-- The line at the start. -/
def dtxStart : DtxSender × DtxReceiver := (.new, .new)

/-- The last of these slots, if there is one, carried comfort noise. -/
def LastIsSid (slots : List Slot) : Prop := ∃ slot ∈ slots.getLast?, slot.action = .sid

/-- One more slot is the last one when it is kept. -/
theorem lastIsSid_concat {slots : List Slot} {slot : Slot} (p : Slot → Bool) :
    LastIsSid ((slots ++ [slot]).filter p) ↔
      if p slot then slot.action = .sid else LastIsSid (slots.filter p) := by
  rw [List.filter_append]
  split_ifs with h
  · simp [LastIsSid, h]
  · simp [h]

/-- The slot in which the two ends decide, and where they are after it. -/
theorem dtxLine_eq (silent : ℕ) (rx : DtxReceiver) (v carries : Bool) :
    let silent' := if v then 0 else silent + 1
    let action := DtxSender.actionAfter silent'
    dtxLine (DtxSender.after silent, rx) (v, carries) =
      if action ≠ .suppress ∧ carries then
        ([⟨action, carries, none⟩],
          (DtxSender.after silent', rx.observePacket (action = .sid)))
      else ([⟨action, carries, some rx.tickNoPacket⟩], (DtxSender.after silent', rx)) := by
  dsimp only
  rw [dtxLine, DtxSender.observeVad_after]

namespace DtxSender

/-- The sender is silent when the hangover is over. -/
theorem state_after_iff (silent : ℕ) :
    (after silent).state = .silence ↔ dtxHangoverFrames < silent := by
  by_cases hle : silent ≤ dtxHangoverFrames
  · simp [after, hle]
  · simp [after, hle, not_le.mp hle]

/-- The sender goes into silence with a packet of comfort noise, and out of it with a frame. -/
theorem state_after_succ (silent : ℕ) (v : Bool) :
    let silent' := if v then 0 else silent + 1
    (after silent').state = .silence ↔
      if actionAfter silent' ≠ .suppress then actionAfter silent' = .sid
      else (after silent).state = .silence := by
  dsimp only
  rw [state_after_iff, state_after_iff]
  cases v with
  | true =>
    have hvoice : actionAfter 0 = .voice := rfl
    simp [hvoice]
  | false =>
    rw [if_neg Bool.false_ne_true]
    have hcases : silent < dtxHangoverFrames ∨ dtxHangoverFrames ≤ silent := lt_or_ge _ _
    -- Within the hangover the frame goes out as voice.
    rcases hcases with hlt | hge
    · have hle : silent + 1 ≤ dtxHangoverFrames := hlt
      have hvoice : actionAfter (silent + 1) = .voice := if_pos hle
      rw [hvoice]
      exact iff_of_false hle.not_gt (by simp)
    · have hover : ¬ silent + 1 ≤ dtxHangoverFrames := by omega
      have hlt : dtxHangoverFrames < silent + 1 := by omega
      have hidx : silent + 1 - dtxHangoverFrames - 1 = silent - dtxHangoverFrames := by omega
      rw [actionAfter, if_neg hover, hidx]
      by_cases hmod : (silent - dtxHangoverFrames) % dtxSidIntervalFrames = 0
      · simp [hmod, hlt]
      · -- The first silent frame is not suppressed, so silence began before this one.
        have hbefore : dtxHangoverFrames < silent := by
          rcases Nat.lt_or_eq_of_le hge with h | h
          · exact h
          · rw [h, Nat.sub_self] at hmod
            exact absurd rfl hmod
        simp [hmod, hlt, hbefore]

end DtxSender

/-- After any run the sender is where the silent frames at the end put it; it is in silence when the
last packet it sent is comfort noise, and the receiver when the last packet that arrived is. -/
theorem dtxLine_finish (line : List (Bool × Bool)) :
    let slots := dtxLine.emitted dtxStart line
    let last := dtxLine.finish dtxStart line
    last.1 = .after (streak not (line.map Prod.fst)) ∧
      (last.1.state = .silence ↔ LastIsSid (slots.filter Slot.sends)) ∧
      (last.2.state = .silence ↔ LastIsSid (slots.filter Slot.receives)) := by
  -- By induction on the frames, the last one first.
  induction line using List.reverseRecOn with
  | nil =>
    have hnone : ∀ p : Slot → Bool, ¬ LastIsSid ([].filter p) := by simp [LastIsSid]
    exact ⟨rfl, iff_of_false (by decide) (hnone _), iff_of_false (by decide) (hnone _)⟩
  | append_singleton line e ih =>
    obtain ⟨v, carries⟩ := e
    dsimp only at ih ⊢
    rw [Machine.finish_append, Machine.emitted_append]
    generalize dtxLine.emitted dtxStart line = slots at *
    generalize dtxLine.finish dtxStart line = last at *
    obtain ⟨tx, rx⟩ := last
    obtain ⟨htx, hsent, harrived⟩ := ih
    dsimp only at htx hsent harrived
    have hstreak : streak not ((line ++ [(v, carries)]).map Prod.fst) =
        if v then 0 else streak not (line.map Prod.fst) + 1 := by
      rw [List.map_append, List.map_singleton, streak_concat]
      cases v <;> rfl
    have hnext := DtxSender.state_after_succ (streak not (line.map Prod.fst)) v
    rw [htx] at hsent ⊢
    show (dtxLine _ _).2.1 = _ ∧
      ((dtxLine _ _).2.1.state = _ ↔ LastIsSid ((_ ++ ((dtxLine _ _).1 ++ [])).filter _)) ∧
      ((dtxLine _ _).2.2.state = _ ↔ LastIsSid ((_ ++ ((dtxLine _ _).1 ++ [])).filter _))
    rw [hstreak, dtxLine_eq, List.append_nil]
    dsimp only at hnext ⊢
    generalize (if v = true then 0 else streak not (line.map Prod.fst) + 1) = silent at *
    rw [hsent] at hnext
    generalize DtxSender.actionAfter silent = action at *
    split_ifs with hboth
    -- The packet was sent and carried, so both ends take it in.
    · obtain ⟨hsends, hcarries⟩ := hboth
      rw [if_pos hsends] at hnext
      refine ⟨rfl, ?_, ?_⟩
      · rw [lastIsSid_concat, if_pos (by simpa [Slot.sends] using hsends)]
        exact hnext
      · rw [lastIsSid_concat, if_pos (by simpa [Slot.receives, Slot.sends, hcarries] using hsends)]
        by_cases hsid : action = .sid <;> simp [DtxReceiver.observePacket, hsid]
    · refine ⟨rfl, ?_, ?_⟩
      · rw [lastIsSid_concat]
        by_cases hsends : action ≠ .suppress
        · rw [if_pos (by simpa [Slot.sends] using hsends)]
          rwa [if_pos hsends] at hnext
        · rw [if_neg (by simpa [Slot.sends] using hsends)]
          rwa [if_neg hsends] at hnext
      · have hlost : ¬ Slot.receives ⟨action, carries, some rx.tickNoPacket⟩ := by
          simpa [Slot.receives, Slot.sends] using hboth
        rw [lastIsSid_concat, if_neg hlost]
        exact harrived

/-- The two ends agree after a run exactly when the last packet sent and the last packet that
arrived are of one kind; an empty slot is taken for comfort noise exactly when the last packet that
arrived is comfort noise; and on a line that loses nothing no slot that the sender left empty is
taken for a loss. -/
theorem receiver_agrees_iff (line : List (Bool × Bool)) (next : Bool × Bool) :
    let slots := dtxLine.emitted dtxStart line
    let ends := dtxLine.finish dtxStart line
    (ends.2.state = ends.1.state ↔
        (LastIsSid (slots.filter Slot.receives) ↔ LastIsSid (slots.filter Slot.sends))) ∧
      (∀ slot ∈ (dtxLine ends next).1, slot.comfort.isSome →
        (slot.comfort = some true ↔ LastIsSid (slots.filter Slot.receives))) ∧
      ((∀ e ∈ line ++ [next], e.2 = true) →
        ∀ slot ∈ (dtxLine ends next).1, slot.comfort ≠ some false) := by
  obtain ⟨htx, hsent, harrived⟩ := dtxLine_finish line
  -- On a line that carries all, what is received is what is sent.
  have hlossless : (∀ e ∈ line, e.2 = true) → ∀ slot ∈ dtxLine.emitted dtxStart line,
      slot.receives = slot.sends := by
    intro hall slot hslot
    obtain ⟨pre, e, post, rfl, hout⟩ := Machine.mem_emitted_iff.mp hslot
    have he : e.2 = true := hall e (by simp)
    generalize dtxLine.finish dtxStart pre = ends at hout
    obtain ⟨tx, rx⟩ := ends
    obtain ⟨v, carries⟩ := e
    dsimp only at he
    simp only [dtxLine, he, and_true] at hout
    split_ifs at hout <;> simp [List.mem_singleton.mp hout, Slot.receives]
  dsimp only at htx hsent harrived ⊢
  generalize dtxLine.emitted dtxStart line = slots at *
  generalize dtxLine.finish dtxStart line = ends at *
  obtain ⟨tx, rx⟩ := ends
  obtain ⟨v, carries⟩ := next
  dsimp only at htx hsent harrived ⊢
  refine ⟨?_, ?_, ?_⟩
  · rw [← harrived, ← hsent]
    cases rx.state <;> cases tx.state <;> simp
  -- An empty slot is comforted if the receiver is in silence.
  · intro slot hslot hempty
    rw [htx, dtxLine_eq] at hslot
    generalize (if v = true then 0 else streak not (line.map Prod.fst) + 1) = silent at hslot
    split_ifs at hslot with hboth
    · rw [List.mem_singleton.mp hslot] at hempty
      cases hempty
    · rw [List.mem_singleton.mp hslot, ← harrived]
      simp [DtxReceiver.tickNoPacket]
  · intro hall slot hslot
    obtain ⟨hline, hcarries⟩ := List.forall_mem_append.mp hall
    have hcarries : carries = true := hcarries _ List.mem_cons_self
    have hsame : slots.filter Slot.receives = slots.filter Slot.sends :=
      List.filter_congr (hlossless hline)
    have hnext := DtxSender.state_after_succ (streak not (line.map Prod.fst)) v
    rw [htx] at hsent hslot
    rw [dtxLine_eq, hcarries] at hslot
    dsimp only at hnext hslot
    generalize (if v = true then 0 else streak not (line.map Prod.fst) + 1) = silent at *
    split_ifs at hslot with hsends
    · simp [List.mem_singleton.mp hslot]
    · -- The slot was left empty, so the sender was in silence, and so was the receiver.
      have hsuppress : DtxSender.actionAfter silent = .suppress := by simpa using hsends
      have hover : dtxHangoverFrames < silent := by
        by_contra hle
        rw [DtxSender.actionAfter, if_pos (not_lt.mp hle)] at hsuppress
        cases hsuppress
      have hsilence : rx.state = .silence := by
        rw [harrived, hsame, ← hsent]
        rw [DtxSender.state_after_iff, if_neg (by simp [hsuppress])] at hnext
        exact hnext.mp hover
      simp [List.mem_singleton.mp hslot, DtxReceiver.tickNoPacket, hsilence]

end LowBand.Lowbandd
