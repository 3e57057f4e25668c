import LowBand.Lib.Bytes
import LowBand.Lib.Lockstep
import Mathlib.Algebra.BigOperators.Group.List.Basic

/-!
# The cursor channel

`CursorPositionSampler` (`core/platform/src/cursor_sender.rs`) sends the cursor's position as one
frame of deltas per tick. A jump that does not fit in 16 bits is saturated, and the sampler
nevertheless goes on from the position itself.

Each coordinate is on its own. The deltas that the receiver decodes are the saturated jumps between
successive positions (`decoded_eq`). The jumps add up to the position (`sum_jumps`),
so the decoded deltas add up to the position less what saturation cut off on the way, and no later
frame sends that again (`sum_saturated`). The receiver is at the cursor exactly when the amounts cut
off cancel (`follows_iff`).
-/

namespace LowBand.Platform

open Lib

/-- Subtraction of `i32`, which wraps when the sum does not fit. -/
def i32Sub (a b : ℤ) : ℤ := Int.bmod (a - b) (2 ^ 32)

/-- Encode a delta: both coordinates as `i16`, little-endian. -/
def encodeDelta (dx dy : ℤ) : Bytes 4 := ⟨leBytesI16 dx ++ leBytesI16 dy, rfl⟩

/-- Decode a delta. -/
def decodeDelta (frame : Bytes 4) : ℤ × ℤ :=
  (ofLEI16 (frame.val.take 2), ofLEI16 (frame.val.drop 2))

/-- The sampler: the last position. -/
structure CursorPositionSampler where
  lastX : ℤ
  lastY : ℤ
  deriving DecidableEq, Repr

namespace CursorPositionSampler

/-- A sampler at the origin. -/
def new : CursorPositionSampler := ⟨0, 0⟩

/-- One tick: the frame of the saturated delta from the last position. -/
def advance (s : CursorPositionSampler) (pos : ℤ × ℤ) : Bytes 4 × CursorPositionSampler :=
  let dx := clampI16 (i32Sub pos.1 s.lastX)
  let dy := clampI16 (i32Sub pos.2 s.lastY)
  (encodeDelta dx dy, ⟨pos.1, pos.2⟩)

end CursorPositionSampler

/-- The deltas that the receiver decodes while the cursor is at the given positions, one a tick. -/
def decoded (s : CursorPositionSampler) (positions : List (ℤ × ℤ)) : List (ℤ × ℤ) :=
  (transduce CursorPositionSampler.advance s positions).1.map decodeDelta

/-- The receiver's position: the sum of the decoded deltas. -/
def receiverPosition (positions : List (ℤ × ℤ)) : ℤ × ℤ := (decoded .new positions).sum

/-- The cursor's position after the given ones. It starts at the origin. -/
def cursorPosition (positions : List (ℤ × ℤ)) : ℤ × ℤ := positions.getLastD (0, 0)

/-- When the cursor stays where it is for enough ticks, the receiver is at the cursor. -/
def Follows (positions : List (ℤ × ℤ)) : Prop :=
  ∃ enough, ∀ still ≥ enough,
    receiverPosition (positions ++ List.replicate still (cursorPosition positions))
      = cursorPosition positions

/-- The coordinate fits in 30 bits and a sign. -/
def Within30 (z : ℤ) : Prop := -2 ^ 30 ≤ z ∧ z < 2 ^ 30

/-! ## One coordinate -/

/-- The jumps between successive coordinates. -/
def jumps : ℤ → List ℤ → List ℤ
  | _, [] => []
  | last, x :: xs => (x - last) :: jumps x xs

/-- The amount by which a jump is beyond 16 bits. -/
def excess (d : ℤ) : ℤ := d - clampI16 d

/-- All that saturation cuts off a coordinate on the way. -/
def cutOff (last : ℤ) (xs : List ℤ) : ℤ := ((jumps last xs).map excess).sum

/-- The jumps lead to the last coordinate. -/
theorem sum_jumps (last : ℤ) (xs : List ℤ) : (jumps last xs).sum = xs.getLastD last - last := by
  induction xs generalizing last with
  | nil => simp [jumps]
  | cons x xs ih =>
    rw [jumps, List.sum_cons, ih, List.getLastD_cons]
    omega

/-- The saturated jumps lead there up to what is cut off. -/
theorem sum_saturated (last : ℤ) (xs : List ℤ) :
    ((jumps last xs).map clampI16).sum = xs.getLastD last - last - cutOff last xs := by
  rw [← sum_jumps]
  unfold cutOff
  induction jumps last xs with
  | nil => rfl
  | cons d ds ih =>
    simp only [List.map_cons, List.sum_cons, ih, excess]
    omega

/-- A coordinate that stays where it is jumps no more. -/
theorem jumps_append_still (last : ℤ) (xs : List ℤ) (still : ℕ) :
    jumps last (xs ++ List.replicate still (xs.getLastD last))
      = jumps last xs ++ List.replicate still 0 := by
  induction xs generalizing last with
  | nil =>
    induction still with
    | zero => rfl
    | succ still ih =>
      simp only [List.nil_append, List.getLastD_nil] at ih
      simp [List.replicate_succ, jumps, ih]
  | cons x xs ih => rw [List.getLastD_cons, List.cons_append, jumps, ih, jumps, List.cons_append]

/-- Nothing is cut off while the coordinate stays. -/
theorem cutOff_append_still (last : ℤ) (xs : List ℤ) (still : ℕ) :
    cutOff last (xs ++ List.replicate still (xs.getLastD last)) = cutOff last xs := by
  have hzero : excess 0 = 0 := by decide
  unfold cutOff
  rw [jumps_append_still]
  simp [hzero]

/-! ## The frames -/

/-- Zero is within 30 bits. -/
theorem within30_zero : Within30 0 := by
  unfold Within30
  decide

/-- Two coordinates within 30 bits are subtracted exactly. -/
theorem i32Sub_of_within {a b : ℤ} (ha : Within30 a) (hb : Within30 b) : i32Sub a b = a - b := by
  unfold Within30 at ha hb
  unfold i32Sub
  rw [Int.bmod_eq_of_le] <;> omega

/-- A delta in range reads back. -/
theorem decodeDelta_encodeDelta {dx dy : ℤ} (hx : -2 ^ 15 ≤ dx ∧ dx < 2 ^ 15)
    (hy : -2 ^ 15 ≤ dy ∧ dy < 2 ^ 15) : decodeDelta (encodeDelta dx dy) = (dx, dy) := by
  have htake : (leBytesI16 dx ++ leBytesI16 dy).take 2 = leBytesI16 dx := List.take_left' (by simp)
  have hdrop : (leBytesI16 dx ++ leBytesI16 dy).drop 2 = leBytesI16 dy := List.drop_left' (by simp)
  unfold decodeDelta encodeDelta
  rw [htake, hdrop, ofLEI16_leBytesI16 hx.1 hx.2, ofLEI16_leBytesI16 hy.1 hy.2]

/-- The receiver decodes the saturated jumps of each coordinate. -/
theorem decoded_eq {s : CursorPositionSampler} (hs : Within30 s.lastX ∧ Within30 s.lastY)
    {positions : List (ℤ × ℤ)} (hpos : ∀ p ∈ positions, Within30 p.1 ∧ Within30 p.2) :
    (decoded s positions).map Prod.fst
        = (jumps s.lastX (positions.map Prod.fst)).map clampI16 ∧
      (decoded s positions).map Prod.snd
        = (jumps s.lastY (positions.map Prod.snd)).map clampI16 := by
  -- By induction on the positions: each jump is clamped and read back.
  induction positions generalizing s with
  | nil => exact ⟨rfl, rfl⟩
  | cons p positions ih =>
    obtain ⟨hp, hrest⟩ := List.forall_mem_cons.mp hpos
    obtain ⟨hfst, hsnd⟩ := ih (s := ⟨p.1, p.2⟩) hp hrest
    have hcons : decoded s (p :: positions)
        = (clampI16 (p.1 - s.lastX), clampI16 (p.2 - s.lastY)) :: decoded ⟨p.1, p.2⟩ positions := by
      unfold decoded
      rw [transduce, List.map_cons]
      unfold CursorPositionSampler.advance
      rw [decodeDelta_encodeDelta (clampI16_mem _) (clampI16_mem _),
        i32Sub_of_within hp.1 hs.1, i32Sub_of_within hp.2 hs.2]
    rw [hcons]
    simp only [List.map_cons, hfst, hsnd, jumps]
    trivial

/-- A sum of pairs is a pair of sums. -/
theorem sum_pairs (l : List (ℤ × ℤ)) : l.sum = ((l.map Prod.fst).sum, (l.map Prod.snd).sum) := by
  induction l with
  | nil => rfl
  | cons p l ih =>
    rw [List.sum_cons, ih]
    rfl

/-- The receiver is where the cursor is, up to what saturation cut off. -/
theorem receiverPosition_eq {positions : List (ℤ × ℤ)}
    (hpos : ∀ p ∈ positions, Within30 p.1 ∧ Within30 p.2) :
    receiverPosition positions
      = ((cursorPosition positions).1 - cutOff 0 (positions.map Prod.fst),
        (cursorPosition positions).2 - cutOff 0 (positions.map Prod.snd)) := by
  obtain ⟨hfst, hsnd⟩ := decoded_eq (s := .new) ⟨within30_zero, within30_zero⟩ hpos
  unfold receiverPosition cursorPosition
  rw [sum_pairs, hfst, hsnd, sum_saturated, sum_saturated, ← List.getLastD_map (f := Prod.fst),
    ← List.getLastD_map (f := Prod.snd)]
  simp [CursorPositionSampler.new]

/-- The cursor stays where it is. -/
theorem cursorPosition_append_still (positions : List (ℤ × ℤ)) (still : ℕ) :
    cursorPosition (positions ++ List.replicate still (cursorPosition positions))
      = cursorPosition positions := by
  unfold cursorPosition
  cases still with
  | zero => simp
  | succ still => simp [List.replicate_succ', ← List.append_assoc]

/-- Positions in range stay in range while the cursor stays. -/
theorem within_append_still {positions : List (ℤ × ℤ)}
    (hpos : ∀ p ∈ positions, Within30 p.1 ∧ Within30 p.2) (still : ℕ) :
    ∀ p ∈ positions ++ List.replicate still (cursorPosition positions),
      Within30 p.1 ∧ Within30 p.2 := by
  have hlast : Within30 (cursorPosition positions).1 ∧ Within30 (cursorPosition positions).2 := by
    rcases List.eq_nil_or_concat positions with rfl | ⟨front, p, rfl⟩
    · exact ⟨within30_zero, within30_zero⟩
    · have hp := hpos p (by simp)
      simpa [cursorPosition] using hp
  intro p hp
  rcases List.mem_append.mp hp with hp | hp
  · exact hpos p hp
  · rw [List.eq_of_mem_replicate hp]
    exact hlast

/-- While the cursor stays, so does the receiver. -/
theorem receiverPosition_append_still {positions : List (ℤ × ℤ)}
    (hpos : ∀ p ∈ positions, Within30 p.1 ∧ Within30 p.2) (still : ℕ) :
    receiverPosition (positions ++ List.replicate still (cursorPosition positions))
      = ((cursorPosition positions).1 - cutOff 0 (positions.map Prod.fst),
        (cursorPosition positions).2 - cutOff 0 (positions.map Prod.snd)) := by
  rw [receiverPosition_eq (within_append_still hpos still), cursorPosition_append_still,
    List.map_append, List.map_append, List.map_replicate, List.map_replicate]
  unfold cursorPosition
  rw [← List.getLastD_map (f := Prod.fst), ← List.getLastD_map (f := Prod.snd),
    cutOff_append_still, cutOff_append_still]

/-- For every sequence of positions, when the cursor then stays still the receiver comes to be at
the cursor if and only if the amounts by which the jumps are beyond 16 bits cancel in each
coordinate. -/
theorem follows_iff {positions : List (ℤ × ℤ)}
    (hpos : ∀ p ∈ positions, Within30 p.1 ∧ Within30 p.2) :
    Follows positions ↔
      cutOff 0 (positions.map Prod.fst) = 0 ∧ cutOff 0 (positions.map Prod.snd) = 0 := by
  unfold Follows
  simp only [receiverPosition_append_still hpos, Prod.ext_iff]
  constructor
  · rintro ⟨enough, h⟩
    obtain ⟨hx, hy⟩ := h enough le_rfl
    constructor <;> omega
  · rintro ⟨hx, hy⟩
    exact ⟨0, fun _ _ => by omega⟩

/-- A jump of 40000 to the right and one of 40001 to the left cancel. -/
theorem follows_there_and_back : Follows [(40000, 0), (-1, 0)] := by
  refine (follows_iff ?_).mpr (by decide)
  simp [Within30]

/-- A single jump to 40000 leaves the receiver at 32767. -/
theorem not_follows_jump : ¬ Follows [(40000, 0)] := by
  rintro ⟨enough, h⟩
  have hpos : ∀ p ∈ [((40000 : ℤ), (0 : ℤ))], Within30 p.1 ∧ Within30 p.2 := by simp [Within30]
  have hat := h enough le_rfl
  rw [receiverPosition_append_still hpos] at hat
  exact absurd hat (by decide)

end LowBand.Platform
