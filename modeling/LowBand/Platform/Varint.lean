import LowBand.Lib.Result
import Mathlib.Algebra.Order.Ring.Int
import Mathlib.Tactic.Common
import Mathlib.Tactic.Linarith

/-!
# Signed varints

The signed LEB128 code for 32-bit integers of `core/platform/src/input_channel_sender.rs`: groups of
seven bits, low group first, the top bit of each byte saying that more follow. The integers are bit
vectors, read as signed.

Arithmetic is checked: a shift by 32 or more, a subtraction whose result does not fit, and the
negation of the least value are `Overflow`. The decoder meets none of them
(`decodeVarintI32_ok`), since it gives up after five groups.

After some groups the decoder has the low bits of the value (`Low`) and the encoder has shifted the
same number of bits out. Each group hands over seven bits (`Low.step`), and the encoder stops when
all bits left are copies of the sign (`Low.eq_of_zero`, `Low.eq_of_neg_one`), at the fifth group at
the latest. So a value is read back whatever bytes follow it (`decode_encode`). One shift takes one
group away from the number of groups that the value needs (`fitsGroups_sshiftRight`), so the encoder
stops after as many bytes as that (`isLeast_length_encodeVarintI32`).
-/

namespace LowBand.Platform

open Lib

/-- An arithmetic step overflows. -/
inductive Overflow
  | overflow
  deriving DecidableEq, Repr

/-- `x << s` on `i32`. -/
def shlI32 (x : BitVec 32) (s : ℕ) : Except Overflow (BitVec 32) :=
  if s < 32 then .ok (x <<< s) else .error .overflow

/-- `-x` on `i32`. -/
def negI32 (x : BitVec 32) : Except Overflow (BitVec 32) :=
  if x = BitVec.intMin 32 then .error .overflow else .ok (-x)

/-- `x - y` on `i32`. -/
def subI32 (x y : BitVec 32) : Except Overflow (BitVec 32) :=
  if x.ssubOverflow y then .error .overflow else .ok (x - y)

/-- The seven low bits, `(value & 0x7f) as u8`. -/
def lowGroup (value : BitVec 32) : UInt8 := ⟨(value &&& 0x7f#32).setWidth 8⟩

/-- The loop of `encode_varint_i32`, with `fuel` bounding its iterations. -/
def encodeGroups : ℕ → BitVec 32 → List UInt8
  | 0, _ => []
  | fuel + 1, value =>
    let byte := lowGroup value
    let value := value.sshiftRight 7
    if value = 0 ∧ byte &&& 0x40 = 0 ∨ value = -1 ∧ byte &&& 0x40 ≠ 0 then [byte]
    else (byte ||| 0x80) :: encodeGroups fuel value

/-- `encode_varint_i32`. Five groups are always enough (`encodeGroups_five`). -/
def encodeVarintI32 (value : BitVec 32) : List UInt8 := encodeGroups 5 value

/-- The loop of `decode_varint_i32` at the `i`-th byte. -/
def decodeGroups : List UInt8 → BitVec 32 → ℕ → ℕ → Except Overflow (Option (BitVec 32 × ℕ))
  | [], _, _, _ => .ok none
  | byte :: bytes, result, shift, i => do
    let bits := (byte &&& 0x7f).toBitVec.setWidth 32
    let result := result ||| (← shlI32 bits shift)
    let shift := shift + 7
    if byte &&& 0x80 = 0 then
      if shift < 32 ∧ byte &&& 0x40 ≠ 0 then
        let result := result ||| (← negI32 (← shlI32 1 shift))
        return some (result, i + 1)
      else
        return some (result, i + 1)
    else if 35 ≤ shift then
      return none
    else
      decodeGroups bytes result shift (i + 1)

/-- `decode_varint_i32`: the value and the number of bytes it took. -/
def decodeVarintI32 (bytes : List UInt8) : Except Overflow (Option (BitVec 32 × ℕ)) :=
  decodeGroups bytes 0 0 0

/-! ## One group -/

/-- A group byte's seven low bits, widened. -/
theorem getLsbD_groupBits (b : UInt8) (j : ℕ) :
    ((b &&& 0x7f).toBitVec.setWidth 32).getLsbD j = (decide (j < 7) && b.toBitVec.getLsbD j) := by
  have hmask : ∀ b : BitVec 8, b &&& 0x7f#8 = (b.setWidth 7).setWidth 8 := by decide
  rw [UInt8.toBitVec_and, show UInt8.toBitVec 0x7f = 0x7f#8 from rfl, hmask]
  simp only [BitVec.getLsbD_setWidth]
  by_cases hj : j < 7
  · simp [hj, show j < 32 by omega, show j < 8 by omega]
  · simp [hj]

/-- `value & 0x7f` keeps the seven low bits. -/
theorem getLsbD_and_group (v : BitVec 32) (j : ℕ) :
    (v &&& 0x7f#32).getLsbD j = (decide (j < 7) && v.getLsbD j) := by
  rw [BitVec.getLsbD_and, BitVec.getLsbD_ofNat, show 0x7f = 2 ^ 7 - 1 from rfl,
    Nat.testBit_two_pow_sub_one]
  by_cases hj : j < 7
  · simp [hj, show j < 32 by omega]
  · simp [hj]

/-- The bits of the low group. -/
theorem getLsbD_lowGroup (v : BitVec 32) (j : ℕ) :
    (lowGroup v).toBitVec.getLsbD j = (decide (j < 7) && v.getLsbD j) := by
  unfold lowGroup
  rw [BitVec.getLsbD_setWidth, getLsbD_and_group]
  by_cases hj : j < 7
  · simp [hj, show j < 8 by omega]
  · simp [hj]

/-- The continuation bit is the only bit that `| 0x80` sets. -/
theorem getLsbD_or_continue (b : UInt8) (j : ℕ) :
    (b ||| 0x80).toBitVec.getLsbD j = (b.toBitVec.getLsbD j || decide (7 = j)) := by
  rw [UInt8.toBitVec_or, BitVec.getLsbD_or, show UInt8.toBitVec 0x80 = BitVec.twoPow 8 7 from rfl,
    BitVec.getLsbD_twoPow]
  simp

/-- `byte & 0x80 == 0` tests bit 7. -/
theorem and_continue_eq_zero (b : UInt8) : b &&& 0x80 = 0 ↔ b.toBitVec.getLsbD 7 = false := by
  have hbit : ∀ b : BitVec 8, b &&& 0x80#8 = 0#8 ↔ b.getLsbD 7 = false := by decide
  rw [← UInt8.toBitVec_inj]
  exact hbit b.toBitVec

/-- `byte & 0x40 == 0` tests bit 6. -/
theorem and_sign_eq_zero (b : UInt8) : b &&& 0x40 = 0 ↔ b.toBitVec.getLsbD 6 = false := by
  have hbit : ∀ b : BitVec 8, b &&& 0x40#8 = 0#8 ↔ b.getLsbD 6 = false := by decide
  rw [← UInt8.toBitVec_inj]
  exact hbit b.toBitVec

/-- The last byte of a value has no continuation bit. -/
theorem lowGroup_stop (v : BitVec 32) : lowGroup v &&& 0x80 = 0 := by
  rw [and_continue_eq_zero, getLsbD_lowGroup]
  simp

/-- The other bytes have it. -/
theorem lowGroup_continue (v : BitVec 32) : (lowGroup v ||| 0x80) &&& 0x80 ≠ 0 := by
  rw [ne_eq, and_continue_eq_zero, getLsbD_or_continue]
  simp

/-- Both kinds of bytes carry the seven low bits of the value. -/
theorem lowGroup_bits (v : BitVec 32) :
    (lowGroup v &&& 0x7f).toBitVec.setWidth 32 = v &&& 0x7f#32 ∧
      ((lowGroup v ||| 0x80) &&& 0x7f).toBitVec.setWidth 32 = v &&& 0x7f#32 := by
  constructor
  · refine BitVec.eq_of_getLsbD_eq fun j _ => ?_
    rw [getLsbD_groupBits, getLsbD_lowGroup, getLsbD_and_group]
    by_cases hj : j < 7 <;> simp [hj]
  · refine BitVec.eq_of_getLsbD_eq fun j _ => ?_
    rw [getLsbD_groupBits, getLsbD_or_continue, getLsbD_lowGroup, getLsbD_and_group]
    by_cases hj : j < 7
    · simp [hj, show ¬ 7 = j by omega]
    · simp [hj]

/-! ## The bits handed over so far -/

/-- `r` holds the `s` low bits of `v` and nothing else. -/
def Low (v : BitVec 32) (s : ℕ) (r : BitVec 32) : Prop :=
  ∀ j, r.getLsbD j = (decide (j < s) && v.getLsbD j)

/-- Nothing has been handed over at first. -/
theorem low_zero (v : BitVec 32) : Low v 0 0 := by
  intro j
  simp

/-- A bit of the value shifted right, as long as it is not a copy of the sign. -/
theorem getLsbD_sshiftRight_of_lt (v : BitVec 32) {s j : ℕ} (h : s + j < 32) :
    (v.sshiftRight s).getLsbD j = v.getLsbD (s + j) := by
  rw [BitVec.getLsbD_sshiftRight, if_pos h]
  simp
  omega

/-- One group hands over seven more bits. -/
theorem Low.step {v r : BitVec 32} {s : ℕ} (h : Low v s r) :
    Low v (s + 7) (r ||| (v.sshiftRight s &&& 0x7f#32) <<< s) := by
  intro j
  rw [BitVec.getLsbD_or, h j, BitVec.getLsbD_shiftLeft, getLsbD_and_group]
  by_cases hjs : j < s
  · simp [hjs, show j < s + 7 by omega]
  · by_cases hj : j < 32
    · have hbit := getLsbD_sshiftRight_of_lt v (s := s) (j := j - s) (by omega)
      rw [Nat.add_sub_cancel' (by omega)] at hbit
      simp [hjs, hj, hbit, show j - s < 7 ↔ j < s + 7 by omega]
    · simp [hj, BitVec.getLsbD_of_ge v j (by omega)]

/-- All bits have been handed over. -/
theorem Low.eq_of_le {v r : BitVec 32} {s : ℕ} (h : Low v s r) (hs : 32 ≤ s) : r = v := by
  refine BitVec.eq_of_getLsbD_eq fun j hj => ?_
  rw [h j, decide_eq_true (by omega), Bool.true_and]

/-- The bits left are zeros. -/
theorem Low.eq_of_zero {v r : BitVec 32} {s : ℕ} (h : Low v s r) (hz : v.sshiftRight s = 0) :
    r = v := by
  refine BitVec.eq_of_getLsbD_eq fun j hj => ?_
  rw [h j]
  by_cases hjs : j < s
  · rw [decide_eq_true hjs, Bool.true_and]
  · have hbit := getLsbD_sshiftRight_of_lt v (s := s) (j := j - s) (by omega)
    rw [hz, Nat.add_sub_cancel' (by omega)] at hbit
    simpa [hjs] using hbit

/-- All bits of minus one are set. -/
theorem getLsbD_neg_one (j : ℕ) : (-1 : BitVec 32).getLsbD j = decide (j < 32) := by
  rw [show (-1 : BitVec 32) = BitVec.allOnes 32 from rfl, BitVec.getLsbD_allOnes]

/-- The bits left are ones, and the sign extension sets them. -/
theorem Low.eq_of_neg_one {v r : BitVec 32} {s : ℕ} (h : Low v s r)
    (hz : v.sshiftRight s = -1) : r ||| -(1#32 <<< s) = v := by
  have hones : -(1#32 <<< s) = BitVec.allOnes 32 <<< s := by
    rw [BitVec.shiftLeft_eq_mul_twoPow, BitVec.shiftLeft_eq_mul_twoPow,
      ← BitVec.neg_one_eq_allOnes, BitVec.neg_mul]
  refine BitVec.eq_of_getLsbD_eq fun j hj => ?_
  rw [BitVec.getLsbD_or, h j, hones, BitVec.getLsbD_shiftLeft, BitVec.getLsbD_allOnes]
  by_cases hjs : j < s
  · simp [hjs]
  · have hbit := getLsbD_sshiftRight_of_lt v (s := s) (j := j - s) (by omega)
    rw [hz, Nat.add_sub_cancel' (by omega)] at hbit
    rw [← hbit, getLsbD_neg_one]
    simp [hjs, hj, show j - s < 32 by omega]

/-! ## The two loops -/

/-- The encoder stops: all bits above the seven low ones are copies of bit 6. -/
def Finished (value : BitVec 32) : Prop :=
  value.sshiftRight 7 = 0 ∧ value.getLsbD 6 = false ∨
    value.sshiftRight 7 = -1 ∧ value.getLsbD 6 = true

/-- Whether the encoder is finished can be decided. -/
instance (value : BitVec 32) : Decidable (Finished value) :=
  inferInstanceAs (Decidable (_ ∧ _ ∨ _ ∧ _))

/-- One iteration of the encoder. -/
theorem encodeGroups_succ (fuel : ℕ) (value : BitVec 32) :
    encodeGroups (fuel + 1) value =
      if Finished value then [lowGroup value]
      else (lowGroup value ||| 0x80) :: encodeGroups fuel (value.sshiftRight 7) := by
  have hsign : lowGroup value &&& 0x40 = 0 ↔ value.getLsbD 6 = false := by
    rw [and_sign_eq_zero, getLsbD_lowGroup]
    simp
  rw [encodeGroups]
  simp only [hsign, ne_eq, Bool.not_eq_false]
  rfl

/-- At the fifth group only copies of the sign are left. -/
theorem finished_last (v : BitVec 32) : Finished (v.sshiftRight 28) := by
  have hsign : (v.sshiftRight 28).getLsbD 6 = v.msb := by
    rw [BitVec.getLsbD_sshiftRight, if_neg (by omega)]
    rfl
  have hbits : ∀ j < 32, ((v.sshiftRight 28).sshiftRight 7).getLsbD j = v.msb := by
    intro j hj
    rw [← BitVec.sshiftRight_add, BitVec.getLsbD_sshiftRight, if_neg (by omega)]
    simp [hj]
  unfold Finished
  rw [hsign]
  cases hmsb : v.msb with
  | false =>
    refine Or.inl ⟨BitVec.eq_of_getLsbD_eq fun j hj => ?_, rfl⟩
    rw [hbits j hj, hmsb]
    simp
  | true =>
    refine Or.inr ⟨BitVec.eq_of_getLsbD_eq fun j hj => ?_, rfl⟩
    rw [hbits j hj, hmsb, getLsbD_neg_one, decide_eq_true hj]

/-- The encoder's loop returns within five iterations: more fuel changes nothing. -/
theorem encodeGroups_add (v : BitVec 32) (m : ℕ) :
    ∀ n s : ℕ, s + 7 * n = 28 →
      encodeGroups (n + m + 1) (v.sshiftRight s) = encodeGroups (n + 1) (v.sshiftRight s) := by
  intro n
  induction n with
  | zero =>
    intro s hs
    obtain rfl : s = 28 := by omega
    rw [encodeGroups_succ, encodeGroups_succ, if_pos (finished_last v), if_pos (finished_last v)]
  | succ n ih =>
    intro s hs
    rw [encodeGroups_succ, encodeGroups_succ, ← BitVec.sshiftRight_add,
      show n + 1 + m = n + m + 1 by omega, ih (s + 7) (by omega)]

/-- So with five iterations the loop is over. -/
theorem encodeGroups_five (v : BitVec 32) (m : ℕ) :
    encodeGroups (5 + m) v = encodeVarintI32 v := by
  have h := encodeGroups_add v m 4 0 rfl
  rw [BitVec.sshiftRight_zero, show 4 + m + 1 = 5 + m by omega] at h
  exact h

/-- An iteration writes one byte. -/
theorem length_encodeGroups_le (fuel : ℕ) (v : BitVec 32) :
    (encodeGroups fuel v).length ≤ fuel := by
  induction fuel generalizing v with
  | zero => exact Nat.le_refl 0
  | succ fuel ih =>
    rw [encodeGroups_succ]
    split
    · simp
    · simpa using ih _

/-- `1 << s` is negated without overflow below the top bit. -/
theorem negI32_one_shl {s : ℕ} (hs : s < 31) : negI32 (1#32 <<< s) = .ok (-(1#32 <<< s)) := by
  have htop : (BitVec.intMin 32).getLsbD 31 = true := rfl
  have hzero : (1#32 <<< s).getLsbD 31 = false := by
    rw [BitVec.getLsbD_shiftLeft, BitVec.getLsbD_one]
    simp
    omega
  refine if_neg fun h => ?_
  rw [h, htop] at hzero
  exact Bool.false_ne_true hzero.symm

/-- One iteration of the decoder, at a shift that it can have: nothing overflows. -/
theorem decodeGroups_cons (byte : UInt8) (bytes : List UInt8) (result : BitVec 32) {s : ℕ} (i : ℕ)
    (hs : s ≤ 28) (hs' : s ≠ 24) :
    decodeGroups (byte :: bytes) result s i =
      let result := result ||| (byte &&& 0x7f).toBitVec.setWidth 32 <<< s
      if byte &&& 0x80 = 0 then
        .ok (some
          (if s + 7 < 32 ∧ byte &&& 0x40 ≠ 0 then result ||| -(1#32 <<< (s + 7)) else result,
            i + 1))
      else if 35 ≤ s + 7 then .ok none
      else decodeGroups bytes result (s + 7) (i + 1) := by
  have hshl : ∀ x, shlI32 x s = .ok (x <<< s) := fun x => if_pos (by omega)
  rw [decodeGroups, hshl]
  simp only [ok_bind]
  by_cases hext : s + 7 < 32 ∧ byte &&& 0x40 ≠ 0
  · have hshl' : shlI32 1 (s + 7) = .ok (1#32 <<< (s + 7)) := if_pos hext.1
    simp only [if_pos hext, hshl', ok_bind, negI32_one_shl (show s + 7 < 31 by omega)]
    rfl
  · simp only [if_neg hext]
    rfl

/-- The decoder gives up after five groups, before a shift could overflow. -/
theorem decodeGroups_ok (bytes : List UInt8) :
    ∀ (result : BitVec 32) (n s i : ℕ), s + 7 * n = 28 →
      ∃ r, decodeGroups bytes result s i = .ok r := by
  induction bytes with
  | nil => exact fun _ _ _ _ _ => ⟨none, rfl⟩
  | cons byte bytes ih =>
    intro result n s i hs
    rw [decodeGroups_cons byte bytes result i (by omega) (by omega)]
    dsimp only
    split
    · exact ⟨_, rfl⟩
    · split
      · exact ⟨_, rfl⟩
      · exact ih _ (n - 1) (s + 7) _ (by omega)

/-- The decoder never overflows, whatever the bytes. -/
theorem decodeVarintI32_ok (bytes : List UInt8) : ∃ r, decodeVarintI32 bytes = .ok r :=
  decodeGroups_ok bytes 0 4 0 0 rfl

/-- The last byte of a value completes it. -/
theorem decodeGroups_last {v r : BitVec 32} (rest : List UInt8) {s : ℕ} (i : ℕ) (hs : s ≤ 28)
    (hs' : s ≠ 24) (hlow : Low v s r) (hfin : Finished (v.sshiftRight s)) :
    decodeGroups (lowGroup (v.sshiftRight s) :: rest) r s i = .ok (some (v, i + 1)) := by
  have hstep := hlow.step
  have hsign : lowGroup (v.sshiftRight s) &&& 0x40 ≠ 0 ↔ (v.sshiftRight s).getLsbD 6 = true := by
    rw [ne_eq, and_sign_eq_zero, getLsbD_lowGroup]
    simp
  unfold Finished at hfin
  rw [← BitVec.sshiftRight_add] at hfin
  rw [decodeGroups_cons _ _ _ _ hs hs', (lowGroup_bits _).1]
  dsimp only
  rw [if_pos (lowGroup_stop _)]
  -- What is left is all zeros or all ones, told by the sign bit of the group.
  rcases hfin with ⟨hzero, hbit⟩ | ⟨hones, hbit⟩
  · have hext : ¬ (s + 7 < 32 ∧ lowGroup (v.sshiftRight s) &&& 0x40 ≠ 0) := by
      rw [hsign, hbit]
      simp
    rw [if_neg hext, hstep.eq_of_zero hzero]
  · by_cases htop : s + 7 < 32
    · rw [if_pos ⟨htop, hsign.mpr hbit⟩, hstep.eq_of_neg_one hones]
    · rw [if_neg fun h => htop h.1, hstep.eq_of_le (by omega)]

/-- The rest of a value is read back behind the bits handed over so far. -/
theorem decodeGroups_encodeGroups (v : BitVec 32) (rest : List UInt8) :
    ∀ (n s i : ℕ) (r : BitVec 32), s + 7 * n = 28 → Low v s r →
      decodeGroups (encodeGroups (n + 1) (v.sshiftRight s) ++ rest) r s i =
        .ok (some (v, i + (encodeGroups (n + 1) (v.sshiftRight s)).length)) := by
  intro n
  -- By induction on the groups that may still come; the last holds the top bits.
  induction n with
  | zero =>
    intro s i r hs hlow
    obtain rfl : s = 28 := by omega
    rw [encodeGroups_succ, if_pos (finished_last v)]
    exact decodeGroups_last rest i (by omega) (by omega) hlow (finished_last v)
  | succ n ih =>
    intro s i r hs hlow
    rw [encodeGroups_succ]
    by_cases hfin : Finished (v.sshiftRight s)
    · rw [if_pos hfin]
      exact decodeGroups_last rest i (by omega) (by omega) hlow hfin
    · rw [if_neg hfin, List.cons_append, decodeGroups_cons _ _ _ _ (by omega) (by omega),
        (lowGroup_bits _).2]
      dsimp only
      rw [if_neg (lowGroup_continue _), if_neg (by omega), ← BitVec.sshiftRight_add,
        ih (s + 7) (i + 1) _ (by omega) hlow.step, List.length_cons,
        Nat.add_assoc, Nat.add_comm 1]

/-- A value is read back whatever bytes follow it. -/
theorem decode_encode (v : BitVec 32) (rest : List UInt8) :
    decodeVarintI32 (encodeVarintI32 v ++ rest)
      = .ok (some (v, (encodeVarintI32 v).length)) := by
  have h := decodeGroups_encodeGroups v rest 4 0 0 0 rfl (low_zero v)
  rw [BitVec.sshiftRight_zero, Nat.zero_add] at h
  exact h

/-! ## The number of bytes -/

/-- The integer fits in `k` groups of seven bits, the top one being the sign. -/
def FitsGroups (k : ℕ) (z : ℤ) : Prop := -2 ^ (7 * k - 1) ≤ z ∧ z < 2 ^ (7 * k - 1)

/-- What fits some groups fits more. -/
theorem FitsGroups.mono {k k' : ℕ} {z : ℤ} (h : FitsGroups k z) (hk : k ≤ k') :
    FitsGroups k' z := by
  have hpow : (2 : ℤ) ^ (7 * k - 1) ≤ 2 ^ (7 * k' - 1) :=
    pow_le_pow_right₀ (by decide) (by omega)
  exact ⟨by linarith [h.1], by linarith [h.2]⟩

/-- Every 32-bit integer fits in five groups. -/
theorem fitsGroups_five (v : BitVec 32) : FitsGroups 5 v.toInt := by
  have hle := BitVec.le_toInt v
  have hlt := BitVec.toInt_lt (x := v)
  unfold FitsGroups
  omega

/-- An arithmetic shift divides. -/
theorem toInt_sshiftRight_seven (v : BitVec 32) : (v.sshiftRight 7).toInt = v.toInt / 128 := by
  rw [BitVec.toInt_sshiftRight, Int.shiftRight_eq_div_pow]
  rfl

/-- Shifting a group out leaves a number that fits in one group less. -/
theorem fitsGroups_sshiftRight (v : BitVec 32) {k : ℕ} (hk : 1 ≤ k) :
    FitsGroups k (v.sshiftRight 7).toInt ↔ FitsGroups (k + 1) v.toInt := by
  have hpow : (2 : ℤ) ^ (7 * (k + 1) - 1) = 2 ^ (7 * k - 1) * 128 := by
    rw [show 7 * (k + 1) - 1 = 7 * k - 1 + 7 by omega, pow_add]
    rfl
  unfold FitsGroups
  rw [toInt_sshiftRight_seven, hpow, ← neg_mul, Int.le_ediv_iff_mul_le (by decide),
    Int.ediv_lt_iff_lt_mul (by decide)]

/-- The encoder stops exactly when the value fits in one group. -/
theorem finished_iff (v : BitVec 32) : Finished v ↔ FitsGroups 1 v.toInt := by
  have hzero : v.sshiftRight 7 = 0 ↔ v.toInt / 128 = 0 := by
    rw [← BitVec.toInt_inj, toInt_sshiftRight_seven]
    rfl
  have hones : v.sshiftRight 7 = -1 ↔ v.toInt / 128 = -1 := by
    rw [← BitVec.toInt_inj, toInt_sshiftRight_seven]
    rfl
  have hbit : v.getLsbD 6 = decide (v.toNat / 64 % 2 = 1) := by
    rw [BitVec.getLsbD, Nat.testBit_eq_decide_div_mod_eq]
  have hsign := BitVec.toInt_eq_toNat_cond v
  have hlt := v.isLt
  unfold Finished FitsGroups
  rw [hzero, hones, hbit, decide_eq_false_iff_not, decide_eq_true_iff]
  split_ifs at hsign <;> omega

/-- The encoding takes at most `k` bytes exactly when the value fits in `k` groups. -/
theorem length_encodeGroups_le_iff (n : ℕ) (v : BitVec 32) (hv : FitsGroups (n + 1) v.toInt) {k : ℕ}
    (hk : 1 ≤ k) : (encodeGroups (n + 1) v).length ≤ k ↔ FitsGroups k v.toInt := by
  -- By induction on the groups: one stops exactly if the value fits it.
  induction n generalizing v k with
  | zero =>
    rw [encodeGroups_succ, if_pos ((finished_iff v).mpr hv)]
    exact iff_of_true hk (hv.mono hk)
  | succ n ih =>
    rw [encodeGroups_succ]
    by_cases hfin : Finished v
    · rw [if_pos hfin]
      exact iff_of_true hk (((finished_iff v).mp hfin).mono hk)
    · rw [if_neg hfin, List.length_cons]
      have hrest := (fitsGroups_sshiftRight v (Nat.succ_pos n)).mpr hv
      rcases Nat.lt_or_ge 1 k with hlt | hge
      · obtain ⟨k, rfl⟩ : ∃ k', k = k' + 1 := ⟨k - 1, by omega⟩
        rw [Nat.add_le_add_iff_right, ih _ hrest (by omega),
          fitsGroups_sshiftRight v (by omega)]
      · -- One byte is too few, as the encoder did not stop.
        obtain rfl : k = 1 := by omega
        rw [← finished_iff]
        have hpos : 0 < (encodeGroups (n + 1) (v.sshiftRight 7)).length := by
          rw [encodeGroups_succ]
          split <;> simp
        exact iff_of_false (by omega) hfin

/-- The number of bytes is the least number of groups in which the value fits. -/
theorem isLeast_length_encodeVarintI32 (v : BitVec 32) :
    IsLeast {k | 1 ≤ k ∧ FitsGroups k v.toInt} (encodeVarintI32 v).length := by
  have hpos : 1 ≤ (encodeVarintI32 v).length := by
    unfold encodeVarintI32
    rw [encodeGroups_succ]
    split <;> simp
  constructor
  · exact ⟨hpos, (length_encodeGroups_le_iff 4 v (fitsGroups_five v) hpos).mp le_rfl⟩
  · rintro k ⟨hk, hfits⟩
    exact (length_encodeGroups_le_iff 4 v (fitsGroups_five v) hk).mpr hfits

/-! ## The bytes that the decoder reads -/

/-- The decoder does not look at more than five bytes. -/
theorem decodeGroups_take (bytes : List UInt8) :
    ∀ (result : BitVec 32) (n s i : ℕ), s + 7 * n = 28 →
      decodeGroups bytes result s i = decodeGroups (bytes.take (n + 1)) result s i := by
  induction bytes with
  | nil => exact fun _ _ _ _ _ => rfl
  | cons byte bytes ih =>
    intro result n s i hs
    rw [List.take_succ_cons, decodeGroups_cons byte bytes result i (by omega) (by omega),
      decodeGroups_cons byte (bytes.take n) result i (by omega) (by omega)]
    dsimp only
    split
    · rfl
    · split
      · rfl
      · obtain ⟨n, rfl⟩ : ∃ n', n = n' + 1 := ⟨n - 1, by omega⟩
        exact ih _ n (s + 7) _ (by omega)

/-- A value takes up no more bytes than there are, and at least one. -/
theorem decodeGroups_consumed {bytes : List UInt8} {result : BitVec 32} {n s i : ℕ}
    (hs : s + 7 * n = 28) {v : BitVec 32} {consumed : ℕ}
    (h : decodeGroups bytes result s i = .ok (some (v, consumed))) :
    i < consumed ∧ consumed ≤ i + bytes.length := by
  -- By induction on the bytes: each group read is one of them.
  induction bytes generalizing result n s i with
  | nil => cases h
  | cons byte bytes ih =>
    rw [decodeGroups_cons byte bytes result i (by omega) (by omega)] at h
    dsimp only at h
    rw [List.length_cons]
    split at h
    · have hconsumed : i + 1 = consumed := by
        injection h with h
        injection h with h
        exact congrArg Prod.snd h
      omega
    · split at h
      · cases h
      · have hrest := ih (n := n - 1) (by omega) h
        omega

/-- The signed varint: the round trip, the number of bytes, the end of the encoder's loop within
five iterations, and the decoder on any bytes. -/
theorem varintI32_spec :
    (∀ (v : BitVec 32) (rest : List UInt8),
      decodeVarintI32 (encodeVarintI32 v ++ rest)
        = .ok (some (v, (encodeVarintI32 v).length)) ∧
      IsLeast {k | 1 ≤ k ∧ FitsGroups k v.toInt} (encodeVarintI32 v).length ∧
      (encodeVarintI32 v).length ≤ 5 ∧
      ∀ m, encodeGroups (5 + m) v = encodeVarintI32 v) ∧
    ∀ bytes : List UInt8,
      (∃ r, decodeVarintI32 bytes = .ok r ∧
        ∀ v consumed, r = some (v, consumed) → consumed ≤ 5 ∧ consumed ≤ bytes.length) ∧
      decodeVarintI32 bytes = decodeVarintI32 (bytes.take 5) := by
  constructor
  · intro v rest
    exact ⟨decode_encode v rest, isLeast_length_encodeVarintI32 v, length_encodeGroups_le 5 v,
      encodeGroups_five v⟩
  · intro bytes
    -- Only five bytes are looked at.
    have htake : decodeVarintI32 bytes = decodeVarintI32 (bytes.take 5) :=
      decodeGroups_take bytes 0 4 0 0 rfl
    obtain ⟨r, hr⟩ := decodeVarintI32_ok bytes
    refine ⟨⟨r, hr, ?_⟩, htake⟩
    rintro v consumed rfl
    have hconsumed := (decodeGroups_consumed (n := 4) rfl (htake ▸ hr)).2
    rw [List.length_take] at hconsumed
    omega

end LowBand.Platform
