import LowBand.Lib.RoundAway
import LowBand.Lib.Run
import LowBand.Platform.InputChannel
import Mathlib.Algebra.BigOperators.Group.List.Basic
import Mathlib.Algebra.Group.Prod
import Mathlib.Algebra.Order.Archimedean.Basic
import Mathlib.Algebra.Order.Ring.Rat

/-!
# Coalesced mouse moves

`MouseMoveCoalescer` of `input_channel_sender.rs` adds up the deltas of mouse moves and sends the
rounded total once a display tick; what rounding leaves is carried to the next tick. The arithmetic
is exact on rational numbers.

The rounded totals are rounded once more by the sender, cast to `i32`, written as varints and read
back at the other end of the input channel. All of these leave an integer of 32 bits as it is
(`step_flush_pending`), so a step keeps the sum of what was decoded and what is pending
(`step_spec`), and `motion_conserved` says it of every run.
-/

namespace LowBand.Platform

open Lib

/-- `as i32` on a rounded number, which saturates. -/
def saturateI32 (z : ℤ) : BitVec 32 := BitVec.ofInt 32 (max (-2 ^ 31) (min z (2 ^ 31 - 1)))

/-- An `i32` is cast to itself. -/
theorem toInt_saturateI32 {z : ℤ} (h : -2 ^ 31 ≤ z ∧ z ≤ 2 ^ 31 - 1) :
    (saturateI32 z).toInt = z := by
  unfold saturateI32
  rw [min_eq_left h.2, max_eq_right h.1, BitVec.toInt_ofInt]
  exact Int.bmod_eq_of_le_mul_two (by omega) (by omega)

/-- `encode` of a mouse move whose deltas are not yet rounded. -/
def InputChannelSender.encodeMouseMove (s : InputChannelSender) (dx dy : ℚ) :
    Except Overflow (Option (List UInt8) × InputChannelSender) :=
  s.encode (.mouseMove (saturateI32 (roundAway dx)) (saturateI32 (roundAway dy)))

/-- `MouseMoveCoalescer`. -/
structure MouseMoveCoalescer where
  /-- The total of the horizontal deltas, with the remainder of the last flush. -/
  pendingDx : ℚ
  /-- The total of the vertical deltas, with the remainder of the last flush. -/
  pendingDy : ℚ
  /-- A delta was accumulated since the last flush. -/
  hasPending : Bool
deriving DecidableEq

namespace MouseMoveCoalescer

/-- `MouseMoveCoalescer::new`. -/
def new : MouseMoveCoalescer := ⟨0, 0, false⟩

/-- `accumulate`. -/
def accumulate (c : MouseMoveCoalescer) (dx dy : ℚ) : MouseMoveCoalescer :=
  ⟨c.pendingDx + dx, c.pendingDy + dy, true⟩

/-- The remainder that a flush carries to the next tick. -/
def carry (c : MouseMoveCoalescer) : MouseMoveCoalescer :=
  ⟨c.pendingDx - roundAway c.pendingDx, c.pendingDy - roundAway c.pendingDy, false⟩

/-- `flush`: the frame, if any, with the coalescer and the sender after it. -/
def flush (c : MouseMoveCoalescer) (sender : InputChannelSender) :
    Except Overflow (Option (List UInt8) × MouseMoveCoalescer × InputChannelSender) :=
  if !c.hasPending then .ok (none, c, sender)
  else do
    let intDx : ℤ := roundAway c.pendingDx
    let intDy : ℤ := roundAway c.pendingDy
    let (frame, sender) ← sender.encodeMouseMove intDx intDy
    return (frame, c.carry, sender)

/-- What is pending on the two axes. -/
def pending (c : MouseMoveCoalescer) : ℚ × ℚ := (c.pendingDx, c.pendingDy)

/-- Without new deltas, no more than a remainder is pending. -/
def Settled (c : MouseMoveCoalescer) : Prop :=
  c.hasPending = false → |c.pendingDx| ≤ 1 / 2 ∧ |c.pendingDy| ≤ 1 / 2

end MouseMoveCoalescer

/-! ## The way of the deltas -/

/-- What happens to a coalescer. -/
inductive MouseEvent where
  /-- `accumulate`. -/
  | accumulate (dx dy : ℚ)
  /-- `flush`. -/
  | flush
deriving DecidableEq

/-- The coalescer with the two ends of the input channel. -/
structure MouseLink where
  /-- The coalescer. -/
  coalescer : MouseMoveCoalescer
  /-- The sender of the frames. -/
  sender : InputChannelSender
  /-- The decoder at the other end. -/
  decoder : InputChannelDecoder
deriving DecidableEq

/-- The deltas that an event accumulates. -/
def MouseEvent.delta : MouseEvent → ℚ × ℚ
  | .accumulate dx dy => (dx, dy)
  | .flush => 0

/-- The coalescer after an event. -/
def MouseMoveCoalescer.after (c : MouseMoveCoalescer) : MouseEvent → MouseMoveCoalescer
  | .accumulate dx dy => c.accumulate dx dy
  | .flush => if c.hasPending then c.carry else c

/-- When the coalescer is flushed, the rounded totals fit in 32 bits. -/
def FitsOnFlush (c : MouseMoveCoalescer) : MouseEvent → Prop
  | .accumulate _ _ => True
  | .flush => (-2 ^ 31 ≤ roundAway c.pendingDx ∧ roundAway c.pendingDx ≤ 2 ^ 31 - 1) ∧
      (-2 ^ 31 ≤ roundAway c.pendingDy ∧ roundAway c.pendingDy ≤ 2 ^ 31 - 1)

/-- Whether a move fits when it is flushed can be decided. -/
instance (c : MouseMoveCoalescer) (e : MouseEvent) : Decidable (FitsOnFlush c e) := by
  cases e <;> unfold FitsOnFlush <;> infer_instance

/-- The deltas of a decoded event. -/
def moveDelta : InputEvent → ℚ × ℚ
  | .mouseMove dx dy => (dx.toInt, dy.toInt)
  | _ => 0

/-- The deltas accumulated since the last flush. -/
def sinceFlush (moves : List (ℚ × ℚ)) (es : List MouseEvent) : List (ℚ × ℚ) :=
  es.foldl (fun moves e =>
    match e with
    | .accumulate dx dy => moves ++ [(dx, dy)]
    | .flush => []) moves

namespace MouseLink

/-- An event, with what the decoder makes of the frame of a flush. -/
def step (s : MouseLink) : MouseEvent → Except Overflow (List InputEvent × MouseLink)
  | .accumulate dx dy => .ok ([], { s with coalescer := s.coalescer.accumulate dx dy })
  | .flush => do
    let (frame, coalescer, sender) ← s.coalescer.flush s.sender
    match frame with
    | none => return ([], ⟨coalescer, sender, s.decoder⟩)
    | some bytes =>
      let (event, decoder) ← s.decoder.decode bytes
      return (event.toList, ⟨coalescer, sender, decoder⟩)

/-- A run, with all decoded events. -/
def run : MouseLink → List MouseEvent → Except Overflow (List InputEvent × MouseLink)
  | s, [] => .ok ([], s)
  | s, e :: es => do
    let (out, s) ← s.step e
    let (outs, s) ← run s es
    return (out ++ outs, s)

/-- A mouse move always has a frame, which the decoder reads back. -/
theorem encode_mouseMove (s : InputChannelSender) (d : InputChannelDecoder) (dx dy : BitVec 32) :
    ∃ bytes, s.encode (.mouseMove dx dy) = .ok (some bytes, s) ∧
      d.decode bytes = .ok (some (.mouseMove dx dy), d) := by
  refine ⟨discMouseMove :: (encodeVarintI32 dx ++ encodeVarintI32 dy), ?_,
    InputChannel.decodeMove_encode d dx dy⟩
  have hdx := InputChannel.length_encodeVarintI32_le dx
  have hdy := InputChannel.length_encodeVarintI32_le dy
  have hlen : (discMouseMove :: (encodeVarintI32 dx ++ encodeVarintI32 dy)).length
      ≤ maxInputFrameBytes := by
    rw [List.length_cons, List.length_append]
    exact Nat.le_trans (by omega : _ ≤ 11) (by decide)
  unfold InputChannelSender.encode InputChannelSender.encodeBuf
  rw [ok_bind]
  dsimp only
  rw [if_pos hlen]
  rfl

/-- A flush without new deltas does nothing. -/
theorem flush_idle {c : MouseMoveCoalescer} (h : c.hasPending = false)
    (sender : InputChannelSender) : c.flush sender = .ok (none, c, sender) := by
  unfold MouseMoveCoalescer.flush
  rw [h]
  rfl

/-- A flush with new deltas gives a frame of the rounded totals. -/
theorem flush_pending {c : MouseMoveCoalescer} (h : c.hasPending = true)
    (sender : InputChannelSender) (decoder : InputChannelDecoder) :
    ∃ bytes, c.flush sender = .ok (some bytes, c.carry, sender) ∧
      decoder.decode bytes = .ok (some (.mouseMove (saturateI32 (roundAway c.pendingDx))
        (saturateI32 (roundAway c.pendingDy))), decoder) := by
  obtain ⟨bytes, hencode, hdecode⟩ := encode_mouseMove sender decoder
    (saturateI32 (roundAway c.pendingDx)) (saturateI32 (roundAway c.pendingDy))
  refine ⟨bytes, ?_, hdecode⟩
  unfold MouseMoveCoalescer.flush InputChannelSender.encodeMouseMove
  dsimp only
  rw [roundAway_intCast, roundAway_intCast, hencode, h]
  rfl

/-- Nothing is decoded of a flush without new deltas. -/
theorem step_flush_idle {s : MouseLink} (h : s.coalescer.hasPending = false) :
    s.step .flush = .ok ([], s) := by
  unfold step
  rw [flush_idle h]
  rfl

/-- The decoder gets the rounded totals. -/
theorem step_flush_pending {s : MouseLink} (h : s.coalescer.hasPending = true) :
    s.step .flush = .ok
      ([.mouseMove (saturateI32 (roundAway s.coalescer.pendingDx))
        (saturateI32 (roundAway s.coalescer.pendingDy))],
        { s with coalescer := s.coalescer.carry }) := by
  obtain ⟨bytes, hflush, hdecode⟩ := flush_pending h s.sender s.decoder
  unfold step
  rw [hflush, ok_bind]
  dsimp only
  rw [hdecode]
  rfl

/-- One event keeps the sum of what was decoded and what is pending, but for the deltas that it
accumulates. -/
theorem step_spec {s : MouseLink} {e : MouseEvent} (hs : s.coalescer.Settled)
    (hfits : FitsOnFlush s.coalescer e) :
    ∃ out s', s.step e = .ok (out, s') ∧ s'.coalescer = s.coalescer.after e ∧
      s'.coalescer.Settled ∧
      (out.map moveDelta).sum + s'.coalescer.pending = s.coalescer.pending + e.delta := by
  cases e with
  -- Nothing is sent, and the total grows by the movement.
  | accumulate dx dy =>
    refine ⟨[], _, rfl, rfl, nofun, ?_⟩
    rw [List.map_nil, List.sum_nil, zero_add]
    rfl
  | flush =>
    cases hpending : s.coalescer.hasPending with
    | false =>
      refine ⟨[], s, step_flush_idle hpending, ?_, hs, ?_⟩
      · unfold MouseMoveCoalescer.after
        rw [hpending, if_neg Bool.false_ne_true]
      · rw [List.map_nil, List.sum_nil, zero_add]
        exact (add_zero _).symm
    -- A flush sends the rounded total and keeps what the rounding left.
    | true =>
      refine ⟨_, _, step_flush_pending hpending, ?_, ?_, ?_⟩
      · unfold MouseMoveCoalescer.after
        rw [hpending, if_pos rfl]
      · intro _
        exact ⟨abs_sub_roundAway _, abs_sub_roundAway _⟩
      · -- Each axis: the rounded total and what is left of the total.
        obtain ⟨hx, hy⟩ := hfits
        rw [List.map_singleton, List.sum_singleton, moveDelta, toInt_saturateI32 hx,
          toInt_saturateI32 hy, MouseEvent.delta, add_zero]
        exact Prod.ext (add_sub_cancel _ _) (add_sub_cancel _ _)

/-- After an event, the coalescer has something to send exactly when the event was no flush. -/
theorem hasPending_after (c : MouseMoveCoalescer) (moves : List (ℚ × ℚ)) (e : MouseEvent) :
    (c.after e).hasPending = true ↔ sinceFlush moves [e] ≠ [] := by
  cases e with
  | accumulate dx dy => exact iff_of_true rfl (by simp [sinceFlush])
  | flush =>
    refine iff_of_false ?_ (by simp [sinceFlush])
    show ¬ (if c.hasPending then c.carry else c).hasPending = true
    split
    · exact Bool.false_ne_true
    · assumption

/-- A run from any state in which no more than a remainder is pending without new deltas. -/
theorem run_spec {s : MouseLink} {moves : List (ℚ × ℚ)} (hs : s.coalescer.Settled)
    (hmoves : s.coalescer.hasPending = true ↔ moves ≠ []) {es : List MouseEvent}
    (hfits : Guarded MouseMoveCoalescer.after FitsOnFlush s.coalescer es) :
    ∃ events s', s.run es = .ok (events, s') ∧ s'.coalescer.Settled ∧
      (s'.coalescer.hasPending = true ↔ sinceFlush moves es ≠ []) ∧
      (events.map moveDelta).sum + s'.coalescer.pending
        = s.coalescer.pending + (es.map MouseEvent.delta).sum := by
  -- By induction on the events: what is sent and what is pending add up.
  induction es generalizing s moves with
  | nil =>
    refine ⟨[], s, rfl, hs, hmoves, ?_⟩
    rw [List.map_nil, List.map_nil, List.sum_nil, zero_add, add_zero]
  | cons e es ih =>
    obtain ⟨hfit, hfits⟩ := hfits
    obtain ⟨out, s₁, hstep, hafter, hs₁, hsum⟩ := step_spec hs hfit
    rw [← hafter] at hfits
    have hmoves₁ : s₁.coalescer.hasPending = true ↔ sinceFlush moves [e] ≠ [] := by
      rw [hafter]
      exact hasPending_after s.coalescer moves e
    obtain ⟨outs, s', hrun, hs', hmoves', hrest⟩ := ih hs₁ hmoves₁ hfits
    refine ⟨out ++ outs, s', ?_, hs', hmoves', ?_⟩
    · rw [run, hstep, ok_bind]
      dsimp only
      rw [hrun]
      rfl
    · calc ((out ++ outs).map moveDelta).sum + s'.coalescer.pending
          = (out.map moveDelta).sum + ((outs.map moveDelta).sum + s'.coalescer.pending) := by
            rw [List.map_append, List.sum_append, add_assoc]
        _ = ((out.map moveDelta).sum + s₁.coalescer.pending)
              + (es.map MouseEvent.delta).sum := by rw [hrest, add_assoc]
        _ = s.coalescer.pending + ((e :: es).map MouseEvent.delta).sum := by
            rw [hsum, add_assoc, List.map_cons, List.sum_cons]

/-- Mouse motion is conserved on both axes: what the decoder got and what is pending add up to what
was accumulated. The remainder after a flush is at most one half, and a flush gives no frame exactly
when nothing was accumulated since the one before. -/
theorem motion_conserved (sender : InputChannelSender) (decoder : InputChannelDecoder)
    (es : List MouseEvent)
    (hfits : Guarded MouseMoveCoalescer.after FitsOnFlush MouseMoveCoalescer.new es) :
    ∃ events s', run ⟨.new, sender, decoder⟩ es = .ok (events, s') ∧
      (events.map moveDelta).sum + s'.coalescer.pending = (es.map MouseEvent.delta).sum ∧
      (es.getLast? = some .flush →
        |s'.coalescer.pendingDx| ≤ 1 / 2 ∧ |s'.coalescer.pendingDy| ≤ 1 / 2) ∧
      ((∃ c sender', s'.coalescer.flush s'.sender = .ok (none, c, sender')) ↔
        sinceFlush [] es = []) := by
  have hsettled : MouseMoveCoalescer.new.Settled := by
    intro _
    simp [MouseMoveCoalescer.new]
  obtain ⟨events, s', hrun, hs', hmoves, hsum⟩ :=
    @run_spec ⟨.new, sender, decoder⟩ [] hsettled (by simp [MouseMoveCoalescer.new]) es hfits
  -- Something is pending exactly if there was a movement since the last flush.
  have hidle : s'.coalescer.hasPending = false ↔ sinceFlush [] es = [] := by
    rw [← Bool.not_eq_true, hmoves, not_not]
  refine ⟨events, s', hrun, hsum.trans (zero_add _), ?_, ?_⟩
  · intro hlast
    apply hs'
    obtain ⟨front, rfl⟩ := List.getLast?_eq_some_iff.mp hlast
    rw [hidle, sinceFlush, List.foldl_append]
    rfl
  · rw [← hidle]
    constructor
    · rintro ⟨c, sender', hflush⟩
      by_contra hpending
      rw [Bool.not_eq_false] at hpending
      obtain ⟨bytes, hsome, -⟩ := flush_pending hpending s'.sender s'.decoder
      rw [hsome] at hflush
      cases hflush
    · intro h
      exact ⟨_, _, flush_idle h s'.sender⟩

/-- Halves of both signs, and a remainder that is sent later. -/
theorem motion_conserved_halves :
    ∃ events s', run ⟨.new, .new, .new⟩ [.accumulate (1 / 2) (-1 / 2), .flush,
        .accumulate 1 (-5 / 4), .flush] = .ok (events, s') ∧
      (events.map moveDelta).sum + s'.coalescer.pending = (3 / 2, -7 / 4) := by
  obtain ⟨events, s', hrun, hsum, -⟩ := motion_conserved .new .new
    [.accumulate (1 / 2) (-1 / 2), .flush, .accumulate 1 (-5 / 4), .flush] (by decide +kernel)
  refine ⟨events, s', hrun, hsum.trans ?_⟩
  decide +kernel

end MouseLink

end LowBand.Platform
