import LowBand.Lib.Run
import Mathlib.Algebra.Order.Group.Int
import Mathlib.Algebra.Order.Group.Nat
import Mathlib.Tactic.Common

/-!
# Expansion of sequence numbers

A datagram carries the low 16 bits of a 47-bit sequence number, and `SeqExpander` of `seq.rs`
rebuilds the number around the one it expects next. The expected number is at most `2^47`, so the
sums of the source do not wrap and it is a natural number here.

A signed 16-bit difference is exact on a window of `2^16` numbers (`delta_eq`), so a number in the
window around the expected one comes back as it was (`expand_wire`). `Tracks` says that the expected
number is one more than the largest number seen, and `expands_tracks` says both of every run.
-/

namespace LowBand.Lbtp

open Lib

/-- `SEQ_BITS`. -/
def seqBits : ℕ := 47

/-- `SEQ_MAX`. -/
def seqMax : ℕ := 2 ^ seqBits - 1

/-- `SeqExpander`. -/
structure SeqExpander where
  /-- The number of the next packet in order. -/
  nextExpected : ℕ
deriving DecidableEq

/-- What is sent of a sequence number: its low 16 bits. -/
def wireSeq (seq : ℕ) : UInt16 := UInt16.ofNat seq

namespace SeqExpander

/-- `SeqExpander::new`. -/
def new : SeqExpander := ⟨0⟩

/-- The signed difference of a wire number and the expected one. -/
def delta (s : SeqExpander) (wire : UInt16) : ℤ :=
  let low := UInt16.ofNat s.nextExpected
  (wire - low).toInt16.toInt

/-- `expand`: the number, and the expander after it. -/
def expand (s : SeqExpander) (wire : UInt16) : ℕ × SeqExpander :=
  let full := (max 0 (min (s.nextExpected + s.delta wire) (seqMax : ℤ))).toNat
  (full, if full ≥ s.nextExpected then ⟨full + 1⟩ else s)

/-- A sequence number in range that lies in the window around the expected one. -/
structure InWindow (s : SeqExpander) (seq : ℕ) : Prop where
  /-- It has 47 bits. -/
  range : seq ≤ seqMax
  /-- It is at most 32768 behind. -/
  behind : s.nextExpected ≤ seq + 32768
  /-- It is at most 32767 ahead. -/
  ahead : seq ≤ s.nextExpected + 32767

/-- Whether a number is in the window can be decided. -/
instance (s : SeqExpander) (seq : ℕ) : Decidable (s.InWindow seq) :=
  decidable_of_iff (seq ≤ seqMax ∧ s.nextExpected ≤ seq + 32768 ∧ seq ≤ s.nextExpected + 32767)
    ⟨fun ⟨h1, h2, h3⟩ => ⟨h1, h2, h3⟩, fun ⟨h1, h2, h3⟩ => ⟨h1, h2, h3⟩⟩

variable {s : SeqExpander} {seq : ℕ}

/-- The difference is exact in the window. -/
theorem delta_eq (h : s.InWindow seq) : s.delta (wireSeq seq) = seq - s.nextExpected := by
  have hbehind := h.behind
  have hahead := h.ahead
  have hsub : (wireSeq seq - UInt16.ofNat s.nextExpected).toNat =
      (2 ^ 16 - s.nextExpected % 2 ^ 16 + seq % 2 ^ 16) % 2 ^ 16 := by
    rw [UInt16.toNat_sub, wireSeq, UInt16.toNat_ofNat', UInt16.toNat_ofNat']
  -- The signed value of a 16-bit word, by its size.
  change (wireSeq seq - UInt16.ofNat s.nextExpected).toBitVec.toInt = _
  rw [BitVec.toInt_eq_toNat_cond]
  change (if 2 * (wireSeq seq - UInt16.ofNat s.nextExpected).toNat < 2 ^ 16
    then ((wireSeq seq - UInt16.ofNat s.nextExpected).toNat : ℤ)
    else (wireSeq seq - UInt16.ofNat s.nextExpected).toNat - (2 ^ 16 : ℕ)) = _
  rw [hsub]
  -- In the window the difference has 16 bits, so its residue is enough.
  split <;> omega

/-- The expander rebuilds a number in the window, and then expects the one after it or what it
expected before. -/
theorem expand_wire (h : s.InWindow seq) :
    s.expand (wireSeq seq) = (seq, ⟨max s.nextExpected (seq + 1)⟩) := by
  have hfull :
      (max 0 (min (s.nextExpected + s.delta (wireSeq seq)) (seqMax : ℤ))).toNat = seq := by
    -- The difference is exact, so the clamp to the range does nothing.
    rw [delta_eq h]
    have hrange := h.range
    omega
  rw [expand, hfull]
  split
  · next hge => rw [max_eq_right (by omega)]
  · next hlt => rw [max_eq_left (by omega)]

/-- The expected number never decreases, whatever arrives. -/
theorem nextExpected_le_expand (s : SeqExpander) (wire : UInt16) :
    s.nextExpected ≤ (s.expand wire).2.nextExpected := by
  unfold expand
  dsimp only
  split
  · next hge => exact Nat.le_succ_of_le hge
  · exact le_rfl

/-- One datagram. -/
def recv : Machine SeqExpander ℕ ℕ := fun s seq =>
  ([(s.expand (wireSeq seq)).1], (s.expand (wireSeq seq)).2)

/-- The expected number is one more than the largest number seen, and zero when none was. -/
structure Tracks (s : SeqExpander) (seen : List ℕ) : Prop where
  /-- Every number seen is below it. -/
  above : ∀ seq ∈ seen, seq < s.nextExpected
  /-- It follows a number seen, or none was seen. -/
  follows : (seen = [] ∧ s.nextExpected = 0) ∨ ∃ seq ∈ seen, s.nextExpected = seq + 1

/-- A new expander has seen nothing. -/
theorem Tracks.new : new.Tracks [] := ⟨by simp, .inl ⟨rfl, rfl⟩⟩

/-- A number in the window joins those seen. -/
theorem Tracks.recv {seen : List ℕ} (hs : s.Tracks seen) (h : s.InWindow seq) :
    (s.recv seq).2.Tracks (seen ++ [seq]) := by
  simp only [SeqExpander.recv, expand_wire h]
  constructor
  · intro n hn
    rcases List.mem_append.mp hn with hn | hn
    · exact lt_max_of_lt_left (hs.above n hn)
    · rw [List.mem_singleton.mp hn]
      exact lt_max_of_lt_right (Nat.lt_succ_self seq)
  · right
    rcases le_total s.nextExpected (seq + 1) with hle | hle
    · exact ⟨seq, by simp, max_eq_right hle⟩
    · -- The number is below one that was seen before.
      rcases hs.follows with ⟨-, hzero⟩ | ⟨n, hn, hnext⟩
      · omega
      · exact ⟨n, List.mem_append_left _ hn, (max_eq_left hle).trans hnext⟩

/-- A run of numbers in the window gives back the numbers, and the expander tracks them. -/
theorem Tracks.run {seen seqs : List ℕ} (hs : s.Tracks seen)
    (h : Guarded (fun s seq => (SeqExpander.recv s seq).2) InWindow s seqs) :
    SeqExpander.recv.emitted s seqs = seqs ∧
      (SeqExpander.recv.finish s seqs).Tracks (seen ++ seqs) := by
  induction seqs generalizing s seen with
  | nil => exact ⟨rfl, (List.append_nil seen).symm ▸ hs⟩
  | cons seq seqs ih =>
    obtain ⟨hseq, hseqs⟩ := h
    obtain ⟨hout, htracks⟩ := ih (hs.recv hseq) hseqs
    constructor
    · rw [Machine.emitted, hout]
      simp [SeqExpander.recv, expand_wire hseq]
    · rw [List.append_assoc] at htracks
      exact htracks

end SeqExpander

open SeqExpander in
/-- In every run in which each number lies in the window around the expected one when it arrives,
the expander gives back exactly these numbers, and it always expects one more than the largest; and
whatever arrives next, the expected number does not decrease. -/
theorem expands_tracks (seqs : List ℕ)
    (h : Guarded (fun s seq => (recv s seq).2) InWindow new seqs) :
    recv.emitted new seqs = seqs ∧ (recv.finish new seqs).Tracks seqs ∧
      ∀ wire, (recv.finish new seqs).nextExpected ≤
        ((recv.finish new seqs).expand wire).2.nextExpected := by
  obtain ⟨hout, htracks⟩ := Tracks.new.run h
  exact ⟨hout, htracks, nextExpected_le_expand _⟩

open SeqExpander in
/-- Gaps, a number from before the wrap of the low 16 bits, and a duplicate. -/
theorem expands_tracks_wrap :
    let seqs := [5, 32000, 64000, 65540, 32773, 64000]
    recv.emitted new seqs = seqs ∧ (recv.finish new seqs).nextExpected = 65541 := by
  intro seqs
  exact ⟨(expands_tracks seqs (by decide +kernel)).1, by decide +kernel⟩

/-! ## The nearest number -/

namespace SeqExpander

/-- How far the wire number is ahead of the low bits of the expected one, modulo `2^16`. -/
def ahead (s : SeqExpander) (wire : UInt16) : ℕ :=
  (wire.toNat + (2 ^ 16 - s.nextExpected % 2 ^ 16)) % 2 ^ 16

/-- The number has the wire number as its low bits and 47 bits, and no other such number is closer
to the expected one. -/
structure Nearest (s : SeqExpander) (wire : UInt16) (full : ℕ) : Prop where
  /-- Its low bits are those on the wire. -/
  low : full % 2 ^ 16 = wire.toNat
  /-- It has 47 bits. -/
  range : full ≤ seqMax
  /-- The others are not closer. -/
  closest : ∀ n ≤ seqMax, n % 2 ^ 16 = wire.toNat →
    ((full : ℤ) - s.nextExpected).natAbs ≤ ((n : ℤ) - s.nextExpected).natAbs

/-- The number around the expected one lies in the range: half of the wire numbers are ahead of the
expected one, and the other half behind it. -/
def InRange (s : SeqExpander) (wire : UInt16) : Prop :=
  if s.ahead wire < 2 ^ 15 then s.nextExpected + s.ahead wire ≤ seqMax
  else 2 ^ 16 ≤ s.nextExpected + s.ahead wire

/-- Whether a number on the wire is in range can be decided. -/
instance (s : SeqExpander) (wire : UInt16) : Decidable (s.InRange wire) := by
  unfold InRange
  infer_instance

/-- The signed difference, by its size. -/
theorem delta_eq_ahead (s : SeqExpander) (wire : UInt16) :
    s.delta wire = if s.ahead wire < 2 ^ 15 then (s.ahead wire : ℤ) else s.ahead wire - 2 ^ 16 := by
  have hsub : (wire - UInt16.ofNat s.nextExpected).toNat = s.ahead wire := by
    rw [UInt16.toNat_sub, UInt16.toNat_ofNat', ahead, Nat.add_comm]
  change (wire - UInt16.ofNat s.nextExpected).toBitVec.toInt = _
  rw [BitVec.toInt_eq_toNat_cond]
  change (if 2 * (wire - UInt16.ofNat s.nextExpected).toNat < 2 ^ 16
    then ((wire - UInt16.ofNat s.nextExpected).toNat : ℤ)
    else (wire - UInt16.ofNat s.nextExpected).toNat - (2 ^ 16 : ℕ)) = _
  rw [hsub]
  split <;> split <;> omega

/-- In every state that an expander can be in, the number that it returns is the nearest one if and
only if the number around the expected one lies in the range. -/
theorem nearest_expand_iff {s : SeqExpander} (hs : s.nextExpected ≤ seqMax + 1) (wire : UInt16) :
    s.Nearest wire (s.expand wire).1 ↔ s.InRange wire := by
  have hwire : wire.toNat < 2 ^ 16 := wire.toNat_lt
  have hahead : s.ahead wire = (wire.toNat + (2 ^ 16 - s.nextExpected % 2 ^ 16)) % 2 ^ 16 := rfl
  have hmax : seqMax = 2 ^ 47 - 1 := rfl
  -- The expanded number is the next one moved by `delta`, clamped at both ends.
  have hfull : ((s.expand wire).1 : ℤ) =
      max 0 (min (s.nextExpected + s.delta wire) (seqMax : ℤ)) :=
    Int.toNat_of_nonneg (le_max_left _ _)
  rw [delta_eq_ahead] at hfull
  unfold InRange
  constructor
  · -- a clamped number does not have the low bits on the wire
    intro h
    have hlow := h.low
    split <;> split at hfull <;> omega
  · -- a number that is not clamped is at most `2^15` away, and the others are `2^16` apart
    intro h
    refine ⟨?_, ?_, fun n hn hlow => ?_⟩
    · split at h <;> split at hfull <;> omega
    · split at h <;> split at hfull <;> omega
    · have hnear : ((s.expand wire).1 - s.nextExpected : ℤ).natAbs ≤ 2 ^ 15 := by
        split at h <;> split at hfull <;> omega
      have hfar : n = (s.expand wire).1 ∨ 2 ^ 16 ≤ ((n : ℤ) - (s.expand wire).1).natAbs := by
        split at h <;> split at hfull <;> omega
      rcases hfar with rfl | hfar
      · exact le_rfl
      · omega

/-- The expected number stays in the range of the numbers or one above. -/
theorem nextExpected_expand_le {s : SeqExpander} (hs : s.nextExpected ≤ seqMax + 1)
    (wire : UInt16) :
    (s.expand wire).2.nextExpected ≤ seqMax + 1 := by
  have hfull : (s.expand wire).1 ≤ seqMax := by
    unfold expand
    dsimp only
    omega
  change (if (s.expand wire).1 ≥ s.nextExpected then SeqExpander.mk ((s.expand wire).1 + 1)
    else s).nextExpected ≤ _
  split
  · exact Nat.succ_le_succ hfull
  · exact hs

end SeqExpander

open SeqExpander in
/-- Whatever wire numbers an expander has been given, for every further one the number that it
returns is the nearest to the expected one if and only if the number around that lies in the range,
from zero to `2^47 - 1`. -/
theorem expand_nearest_iff (wires : List UInt16) (wire : UInt16) :
    let s := run (fun s wire => (s.expand wire).2) new wires
    s.Nearest wire (s.expand wire).1 ↔ s.InRange wire := by
  refine nearest_expand_iff ?_ wire
  have hstep : ∀ (s : SeqExpander) (wire : UInt16), s.nextExpected ≤ seqMax + 1 →
      (s.expand wire).2.nextExpected ≤ seqMax + 1 :=
    fun s wire hs => nextExpected_expand_le hs wire
  exact run_induction hstep wires (Nat.zero_le _)

open SeqExpander in
/-- A new expander gives 0 for the wire number 65535. -/
theorem new_expand_not_nearest :
    ¬ ∀ (wires : List UInt16) (wire : UInt16),
      let s := run (fun s wire => (s.expand wire).2) new wires
      s.Nearest wire (s.expand wire).1 := by
  intro h
  exact absurd (h [] 65535).low (by decide)

end LowBand.Lbtp
