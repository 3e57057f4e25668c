import LowBand.Lib.MsbBits
import LowBand.Platform.Varint

/-!
# The bit stream of the motion coder

The bit writer and reader, the Exp-Golomb code and the zigzag map of
`core/platform/src/motion_encoder.rs`.

A writer holds a bit string (`BitWriter.Holds`) and a reader has one before it (`BitReader.Ahead`).
Each operation is described by these strings alone: a value is written as its Exp-Golomb code
(`writeExpGolomb_holds`), and the reader takes the code back when it has at most thirty leading
zeros (`readExpGolomb_code`) and gives up on it otherwise (`readExpGolomb_long`).

The zigzag map doubles the value, with the sign as the last bit (`zigzagEncode_eq`), so a difference
goes through the stream when it is less than `2^30` in magnitude (`zigzagEncode_lt_iff`). From bits
that no writer wrote, the reader gives up or takes a code off them (`readExpGolomb_any`).
-/

namespace LowBand.Platform.Motion

open Lib

/-- `MotionCodecError`. -/
inductive MotionCodecError
  | missingKeyframe
  | emptyPayload
  | truncated
  | unknownTag (tag : UInt8)
  deriving DecidableEq, Repr

/-- How a decoding ends without a value: the frame is rejected, or an addition overflows. -/
inductive DecodeFailure
  | rejected (error : MotionCodecError)
  | overflow
  deriving DecidableEq, Repr

/-! ## The writer -/

/-- The bit writer: whole bytes, and the bits of the byte begun. -/
structure BitWriter where
  bytes : List UInt8
  pending : UInt8
  bits : ℕ
  deriving DecidableEq, Repr

namespace BitWriter

/-- A writer that holds nothing. -/
def new : BitWriter := ⟨[], 0, 0⟩

/-- Write one bit. -/
def writeBit (w : BitWriter) (b : Bool) : BitWriter :=
  let pending := if b then w.pending ||| 1 <<< UInt8.ofNat (7 - w.bits) else w.pending
  let bits := w.bits + 1
  if bits = 8 then ⟨w.bytes ++ [pending], 0, 0⟩ else ⟨w.bytes, pending, bits⟩

/-- Write the `n` low bits of a value, the most significant first. -/
def writeBits (w : BitWriter) (value n : ℕ) : BitWriter :=
  (List.range n).reverse.foldl (fun w i => w.writeBit (value.testBit i)) w

/-- Fill up the byte begun with zeros. -/
def finish (w : BitWriter) : List UInt8 :=
  if 0 < w.bits then w.bytes ++ [w.pending] else w.bytes

/-- The writer holds the bits: those of its whole bytes and the first bits of the byte begun, whose
other bits are zero. -/
structure Holds (w : BitWriter) (bs : List Bool) : Prop where
  bits_lt : w.bits < 8
  eq : bs = bitsMsb w.bytes ++ (msbBits 8 w.pending.toNat).take w.bits
  clear : ∀ k, w.bits ≤ k → k < 8 → w.pending.toNat.testBit (7 - k) = false

/-- A new writer holds no bits. -/
theorem holds_new : new.Holds [] :=
  ⟨by decide, rfl, fun k _ _ => by simp [new]⟩

/-- Setting a bit of a byte changes that bit only. -/
theorem testBit_set (pending : UInt8) {i j : ℕ} (hi : i < 8) (hj : j < 8) :
    (pending ||| 1 <<< UInt8.ofNat i).toNat.testBit j
      = (pending.toNat.testBit j || decide (j = i)) := by
  have hone : ∀ i < 8, ∀ j < 8,
      ((1 : UInt8) <<< UInt8.ofNat i).toNat.testBit j = decide (j = i) := by decide
  rw [UInt8.toNat_or, Nat.testBit_or, hone i hi j hj]

/-- The bit is put at the next place of the byte begun. -/
theorem testBit_pending (w : BitWriter) (hw : w.bits < 8) (b : Bool) {k : ℕ} (hk : k < 8) :
    (if b then w.pending ||| 1 <<< UInt8.ofNat (7 - w.bits) else w.pending).toNat.testBit (7 - k)
      = (w.pending.toNat.testBit (7 - k) || (b && decide (k = w.bits))) := by
  cases b with
  | false => simp
  | true =>
    rw [if_pos rfl, testBit_set _ (by omega) (by omega), Bool.true_and]
    congr 2
    exact propext ⟨by omega, by omega⟩

/-- One more bit. -/
theorem Holds.writeBit {w : BitWriter} {bs : List Bool} (h : w.Holds bs) (b : Bool) :
    (w.writeBit b).Holds (bs ++ [b]) := by
  obtain ⟨hbits, rfl, hclear⟩ := h
  have hset := fun k (hk : k < 8) => w.testBit_pending hbits b hk
  unfold BitWriter.writeBit
  dsimp only
  generalize (if b then w.pending ||| 1 <<< UInt8.ofNat (7 - w.bits) else w.pending) = p at hset ⊢
  -- The new bit goes behind the pending ones.
  have htake : (msbBits 8 p.toNat).take (w.bits + 1)
      = (msbBits 8 w.pending.toNat).take w.bits ++ [b] := by
    have hlast : p.toNat.testBit (7 - w.bits) = b := by
      rw [hset _ hbits, hclear _ le_rfl hbits]
      simp
    have hfront : (msbBits 8 p.toNat).take w.bits = (msbBits 8 w.pending.toNat).take w.bits := by
      refine take_msbBits_congr fun k hk hk8 => ?_
      rw [show 8 - 1 - k = 7 - k by omega, hset k hk8]
      simp [hk.ne]
    rw [take_succ_msbBits hbits, hfront, hlast]
  split
  -- The eighth bit completes the byte.
  · next hfull =>
    rw [hfull, List.take_of_length_le (by simp)] at htake
    refine ⟨Nat.zero_lt_succ 7, ?_, fun k _ _ => by simp⟩
    have hone : bitsMsb [p] = msbBits 8 p.toNat := List.append_nil _
    rw [List.append_assoc, ← htake, bitsMsb_append, hone]
    simp
  · next hopen =>
    have hlt : w.bits + 1 < 8 := by omega
    refine ⟨hlt, by rw [List.append_assoc, htake], fun k hk hk8 => ?_⟩
    have hk : w.bits + 1 ≤ k := hk
    rw [hset k hk8, hclear k (by omega) hk8]
    simp
    omega

/-- The bits of a value. -/
theorem Holds.writeBits {w : BitWriter} {bs : List Bool} (h : w.Holds bs) (value n : ℕ) :
    (w.writeBits value n).Holds (bs ++ msbBits n value) := by
  induction n generalizing w bs with
  | zero => simpa [BitWriter.writeBits, msbBits, natBits] using h
  | succ n ih =>
    have hstep : w.writeBits value (n + 1) = (w.writeBit (value.testBit n)).writeBits value n := by
      simp [BitWriter.writeBits, List.range_succ]
    rw [hstep, msbBits_succ, List.append_cons]
    exact ih (h.writeBit _)

/-- Zeros, one after another. -/
theorem Holds.writeZeros {w : BitWriter} {bs : List Bool} (h : w.Holds bs) (n : ℕ) :
    ((List.range n).foldl (fun w _ => w.writeBit false) w).Holds
      (bs ++ List.replicate n false) := by
  induction n with
  | zero => simpa using h
  | succ n ih =>
    rw [List.replicate_succ', ← List.append_assoc, List.range_succ, List.foldl_append]
    exact ih.writeBit false

/-- The bytes of a finished writer are the bits it holds, with zeros to fill up a byte. -/
theorem Holds.finish {w : BitWriter} {bs : List Bool} (h : w.Holds bs) :
    ∃ pad, bitsMsb w.finish = bs ++ pad := by
  obtain ⟨-, rfl, -⟩ := h
  unfold BitWriter.finish
  split
  · next hpos =>
    refine ⟨(msbBits 8 w.pending.toNat).drop w.bits, ?_⟩
    rw [bitsMsb_append, List.append_assoc, List.take_append_drop]
    simp [bitsMsb]
  · next hzero =>
    refine ⟨[], ?_⟩
    rw [Nat.eq_zero_of_not_pos hzero]
    simp

end BitWriter

/-! ## The reader -/

/-- The bit reader: a byte string and the place in it. -/
structure BitReader where
  data : List UInt8
  byte : ℕ
  bit : ℕ
  deriving DecidableEq, Repr

/-- A decoder of bits. -/
abbrev BitDecoder := StateT BitReader (Except DecodeFailure)

namespace BitReader

/-- A reader at the start of a byte string. -/
def new (data : List UInt8) : BitReader := ⟨data, 0, 0⟩

/-- Read one bit. -/
def readBit : BitDecoder Bool := fun r =>
  match r.data[r.byte]? with
  | none => .error (.rejected .truncated)
  | some byte =>
    let b := byte.toNat.testBit (7 - r.bit)
    let bit := r.bit + 1
    if bit = 8 then .ok (b, ⟨r.data, r.byte + 1, 0⟩) else .ok (b, ⟨r.data, r.byte, bit⟩)

/-- The reader has the bits before it. -/
structure Ahead (r : BitReader) (bs : List Bool) : Prop where
  bit_lt : r.bit < 8
  eq : bs = (bitsMsb r.data).drop (8 * r.byte + r.bit)

/-- A new reader has all bits ahead of it. -/
theorem ahead_new (data : List UInt8) : (new data).Ahead (bitsMsb data) :=
  ⟨Nat.zero_lt_succ 7, rfl⟩

/-- The next bit is read, and the others are still ahead. -/
theorem Ahead.readBit {r : BitReader} {b : Bool} {bs : List Bool} (h : r.Ahead (b :: bs)) :
    ∃ r', BitReader.readBit r = .ok (b, r') ∧ r'.Ahead bs := by
  obtain ⟨hbit, heq⟩ := h
  -- The next bit is the one the reader stands at.
  have hget : (bitsMsb r.data)[8 * r.byte + r.bit]? = some b := by
    rw [← List.head?_drop, ← heq]
    rfl
  have hrest : bs = (bitsMsb r.data).drop (8 * r.byte + r.bit + 1) := by
    rw [← List.tail_drop, ← heq]
    rfl
  rw [getElem?_bitsMsb hbit, Option.map_eq_some_iff] at hget
  obtain ⟨byte, hbyte, hval⟩ := hget
  unfold BitReader.readBit
  simp only [hbyte, hval]
  split
  · next hfull =>
    refine ⟨_, rfl, Nat.zero_lt_succ 7, ?_⟩
    rw [hrest]
    congr 1
    simp only
    omega
  · next hopen =>
    refine ⟨_, rfl, by simp only; omega, hrest⟩

/-- At the end of the byte string there is no bit to read. -/
theorem Ahead.readBit_nil {r : BitReader} (h : r.Ahead []) :
    BitReader.readBit r = .error (.rejected .truncated) := by
  obtain ⟨hbit, heq⟩ := h
  have hend := List.drop_eq_nil_iff.mp heq.symm
  rw [length_bitsMsb] at hend
  unfold BitReader.readBit
  rw [List.getElem?_eq_none (by omega)]

end BitReader

/-! ## Exp-Golomb codes -/

/-- Write `n` with the Exp-Golomb code. The code is that of `n + 1`, which must fit in 32 bits. -/
def writeExpGolomb (w : BitWriter) (n : ℕ) : Except Overflow BitWriter :=
  if n + 1 < 2 ^ 32 then
    let v := n + 1
    let m := v.log2
    let w := (List.range m).foldl (fun w _ => w.writeBit false) w
    .ok (w.writeBits v (m + 1))
  else .error .overflow

/-- The first loop of `read_exp_golomb`, which counts the zeros and gives up after thirty. The first
argument is how many zeros may still come. -/
def readZeros : ℕ → ℕ → BitDecoder ℕ
  | 0, _ => throw (.rejected .truncated)
  | fuel + 1, m => do
    if ← BitReader.readBit then return m
    readZeros fuel (m + 1)

/-- The second loop of `read_exp_golomb`, over `m` more bits. -/
def readValue : ℕ → ℕ → BitDecoder ℕ
  | 0, val => return val
  | m + 1, val => do
    let b ← BitReader.readBit
    readValue m ((val <<< 1 ||| b.toNat) % 2 ^ 32)

/-- Read one Exp-Golomb code. -/
def readExpGolomb : BitDecoder ℕ := do
  let m ← readZeros 31 0
  let val ← readValue m 1
  return val - 1

/-- A decoder goes on after a part that succeeds. -/
theorem bitDecoder_bind {α β : Type} {p : BitDecoder α} {q : α → BitDecoder β} {r r' : BitReader}
    {a : α} (h : p r = .ok (a, r')) : (p >>= q) r = q a r' := by
  change (p r >>= fun x => q x.1 x.2) = _
  rw [h]
  rfl

/-- A decoder fails with its first part. -/
theorem bitDecoder_bind_error {α β : Type} {p : BitDecoder α} {q : α → BitDecoder β}
    {r : BitReader} {e : DecodeFailure} (h : p r = .error e) : (p >>= q) r = .error e := by
  change (p r >>= fun x => q x.1 x.2) = _
  rw [h]
  rfl

/-- A value is written as its code. -/
theorem writeExpGolomb_holds {w : BitWriter} {bs : List Bool} (h : w.Holds bs) {n : ℕ}
    (hn : n + 1 < 2 ^ 32) :
    ∃ w', writeExpGolomb w n = .ok w' ∧ w'.Holds (bs ++ expGolomb n) := by
  refine ⟨_, if_pos hn, ?_⟩
  have hcode := (h.writeZeros (n + 1).log2).writeBits (n + 1) ((n + 1).log2 + 1)
  rwa [List.append_assoc] at hcode

/-- The zeros before a one are counted, as long as there are not too many. -/
theorem readZeros_code {r : BitReader} {bs : List Bool} {fuel k : ℕ} (m : ℕ) (hk : k < fuel)
    (h : r.Ahead (List.replicate k false ++ true :: bs)) :
    ∃ r', readZeros fuel m r = .ok (m + k, r') ∧ r'.Ahead bs := by
  induction k generalizing r fuel m with
  | zero =>
    obtain ⟨fuel, rfl⟩ : ∃ f, fuel = f + 1 := ⟨fuel - 1, by omega⟩
    obtain ⟨r', hread, hrest⟩ := h.readBit
    refine ⟨r', ?_, hrest⟩
    rw [readZeros, bitDecoder_bind hread]
    rfl
  | succ k ih =>
    obtain ⟨fuel, rfl⟩ : ∃ f, fuel = f + 1 := ⟨fuel - 1, by omega⟩
    obtain ⟨r', hread, hrest⟩ := BitReader.Ahead.readBit h
    obtain ⟨r'', hzeros, hlast⟩ := ih (m + 1) (Nat.lt_of_succ_lt_succ hk) hrest
    refine ⟨r'', ?_, hlast⟩
    rw [readZeros, bitDecoder_bind hread]
    change readZeros fuel (m + 1) r' = _
    rw [hzeros, Nat.add_assoc, Nat.add_comm 1 k]

/-- With too many zeros the reader gives up. -/
theorem readZeros_long {r : BitReader} {bs : List Bool} {fuel : ℕ} (m : ℕ)
    (h : r.Ahead (List.replicate fuel false ++ bs)) :
    readZeros fuel m r = .error (.rejected .truncated) := by
  induction fuel generalizing r m with
  | zero => rfl
  | succ fuel ih =>
    obtain ⟨r', hread, hrest⟩ := BitReader.Ahead.readBit h
    rw [readZeros, bitDecoder_bind hread]
    exact ih (m + 1) hrest

/-- The bits after the zeros are read on from the first one. -/
theorem readValue_bits {r : BitReader} {bits bs : List Bool} {val : ℕ}
    (hfit : (val + 1) * 2 ^ bits.length ≤ 2 ^ 32) (h : r.Ahead (bits ++ bs)) :
    ∃ r', readValue bits.length val r = .ok (ofMsb val bits, r') ∧ r'.Ahead bs := by
  -- By induction on the bits, most significant first; the value stays in range.
  induction bits generalizing r val with
  | nil => exact ⟨r, rfl, h⟩
  | cons b bits ih =>
    obtain ⟨r', hread, hrest⟩ := BitReader.Ahead.readBit h
    have hb : b.toNat < 2 := b.toNat_lt
    have hpow : 0 < 2 ^ bits.length := Nat.two_pow_pos _
    rw [List.length_cons, pow_succ', ← Nat.mul_assoc] at hfit
    have hroom : (val + 1) * 2 ≤ (val + 1) * 2 * 2 ^ bits.length := Nat.le_mul_of_pos_right _ hpow
    have hnext : (2 * val + b.toNat + 1) * 2 ^ bits.length ≤ (val + 1) * 2 * 2 ^ bits.length :=
      Nat.mul_le_mul_right _ (by omega)
    -- The shift loses nothing, so the new bit is added to twice the value.
    have hstep : (val <<< 1 ||| b.toNat) % 2 ^ 32 = 2 * val + b.toNat := by
      have hor : val <<< 1 ||| b.toNat = 2 * val + b.toNat := by
        rw [Nat.shiftLeft_eq, pow_one, Nat.mul_comm val 2]
        exact (Nat.two_pow_add_eq_or_of_lt (i := 1) hb val).symm
      rw [hor, Nat.mod_eq_of_lt (by omega)]
    obtain ⟨r'', hval, hlast⟩ := ih (hnext.trans hfit) hrest
    refine ⟨r'', ?_, hlast⟩
    rw [List.length_cons, readValue, bitDecoder_bind hread, hstep, hval]
    rfl

/-- A code with at most thirty leading zeros is read back. -/
theorem readExpGolomb_code {r : BitReader} {bs : List Bool} {n : ℕ} (hn : n + 1 < 2 ^ 31)
    (h : r.Ahead (expGolomb n ++ bs)) :
    ∃ r', readExpGolomb r = .ok (n, r') ∧ r'.Ahead bs := by
  have hlog : (n + 1).log2 < 31 := (Nat.log2_lt (Nat.succ_ne_zero n)).mpr hn
  rw [expGolomb_eq, List.append_assoc, List.cons_append] at h
  obtain ⟨r₁, hzeros, h₁⟩ := readZeros_code 0 hlog h
  have hpow : 2 ^ (n + 1).log2 ≤ 2 ^ 30 := Nat.pow_le_pow_right (by decide) (by omega)
  have hfit : (1 + 1) * 2 ^ (msbBits (n + 1).log2 (n + 1)).length ≤ 2 ^ 32 := by
    rw [length_msbBits]
    omega
  obtain ⟨r₂, hval, h₂⟩ := readValue_bits hfit h₁
  rw [length_msbBits, ofMsb_expGolomb] at hval
  refine ⟨r₂, ?_, h₂⟩
  unfold readExpGolomb
  rw [bitDecoder_bind hzeros, Nat.zero_add, bitDecoder_bind hval]
  rfl

/-- A code with more zeros is refused. -/
theorem readExpGolomb_long {r : BitReader} {bs : List Bool} {n : ℕ} (hn : 2 ^ 31 ≤ n + 1)
    (h : r.Ahead (expGolomb n ++ bs)) :
    readExpGolomb r = .error (.rejected .truncated) := by
  have hlog : 31 ≤ (n + 1).log2 := (Nat.le_log2 (Nat.succ_ne_zero n)).mpr hn
  obtain ⟨k, hk⟩ := Nat.exists_eq_add_of_le hlog
  unfold expGolomb at h
  rw [hk, ← List.replicate_append_replicate, List.append_assoc, List.append_assoc] at h
  unfold readExpGolomb
  exact bitDecoder_bind_error (readZeros_long 0 h)

/-! ## The zigzag map -/

/-- The sign moves to the last bit, `((n << 1) ^ (n >> 31)) as u32`. -/
def zigzagEncode (n : BitVec 32) : ℕ := ((n <<< 1) ^^^ (n.sshiftRight 31)).toNat

/-- The map back, `((n >> 1) as i32) ^ (-((n & 1) as i32))`. -/
def zigzagDecode (n : ℕ) : BitVec 32 :=
  BitVec.ofNat 32 (n >>> 1) ^^^ -BitVec.ofNat 32 (n &&& 1)

/-- The sign of a number that is not negative, in all bits. -/
theorem sshiftRight_of_msb_false {n : BitVec 32} (h : n.msb = false) :
    n.sshiftRight 31 = 0#32 := by
  have hlt := BitVec.msb_eq_false_iff_two_mul_lt.mp h
  rw [BitVec.sshiftRight_eq_of_msb_false h]
  apply BitVec.eq_of_toNat_eq
  rw [BitVec.toNat_ushiftRight, Nat.shiftRight_eq_div_pow, BitVec.toNat_ofNat]
  omega

/-- The sign of a negative number, in all bits. -/
theorem sshiftRight_of_msb_true {n : BitVec 32} (h : n.msb = true) :
    n.sshiftRight 31 = BitVec.allOnes 32 := by
  have hle := BitVec.msb_eq_true_iff_two_mul_ge.mp h
  have hzero : ~~~n >>> 31 = 0#32 := by
    apply BitVec.eq_of_toNat_eq
    rw [BitVec.toNat_ushiftRight, Nat.shiftRight_eq_div_pow, BitVec.toNat_not, BitVec.toNat_ofNat]
    omega
  rw [BitVec.sshiftRight_eq_of_msb_true h, hzero]
  rfl

/-- What the map computes. -/
theorem zigzagEncode_eq (n : BitVec 32) :
    (zigzagEncode n : ℤ) = if 0 ≤ n.toInt then 2 * n.toInt else -2 * n.toInt - 1 := by
  unfold zigzagEncode
  cases hsign : n.msb with
  | false =>
    have hlt := BitVec.msb_eq_false_iff_two_mul_lt.mp hsign
    have hint := BitVec.toInt_eq_toNat_of_msb hsign
    rw [sshiftRight_of_msb_false hsign, BitVec.xor_zero, BitVec.toNat_shiftLeft,
      Nat.shiftLeft_eq, hint, if_pos (by omega)]
    omega
  | true =>
    have hle := BitVec.msb_eq_true_iff_two_mul_ge.mp hsign
    have hlt := n.isLt
    have hint := BitVec.toInt_eq_msb_cond n
    rw [hsign, if_pos rfl] at hint
    rw [sshiftRight_of_msb_true hsign, BitVec.xor_allOnes, BitVec.toNat_not,
      BitVec.toNat_shiftLeft, Nat.shiftLeft_eq, hint, if_neg (by omega)]
    omega

/-- What the map back computes. -/
theorem toInt_zigzagDecode {n : ℕ} (hn : n < 2 ^ 32) :
    (zigzagDecode n).toInt = if n % 2 = 0 then (n / 2 : ℤ) else -(n / 2 : ℤ) - 1 := by
  have hhalf : (BitVec.ofNat 32 (n >>> 1)).toNat = n / 2 := by
    rw [BitVec.toNat_ofNat, Nat.shiftRight_eq_div_pow, pow_one, Nat.mod_eq_of_lt]
    omega
  unfold zigzagDecode
  rw [Nat.and_one_is_mod]
  rcases Nat.mod_two_eq_zero_or_one n with heven | hodd
  · have hzero : -BitVec.ofNat 32 0 = 0#32 := by decide
    rw [heven, if_pos rfl, hzero, BitVec.xor_zero, BitVec.toInt_eq_toNat_cond, hhalf,
      if_pos (by omega)]
    omega
  · have hones : -BitVec.ofNat 32 1 = BitVec.allOnes 32 := by decide
    rw [hodd, if_neg (by decide), hones, BitVec.xor_allOnes, BitVec.toInt_eq_toNat_cond,
      BitVec.toNat_not, hhalf, if_neg (by omega)]
    omega

/-- The map back undoes it. -/
theorem zigzagDecode_zigzagEncode (n : BitVec 32) : zigzagDecode (zigzagEncode n) = n := by
  have henc := zigzagEncode_eq n
  have hlt : zigzagEncode n < 2 ^ 32 := BitVec.isLt _
  apply BitVec.eq_of_toInt_eq
  rw [toInt_zigzagDecode hlt]
  split at henc <;> split <;> omega

/-- The code of a difference can be read when the difference is less than `2^30` in magnitude. -/
theorem zigzagEncode_lt_iff (n : BitVec 32) :
    zigzagEncode n + 1 < 2 ^ 31 ↔ -2 ^ 30 < n.toInt ∧ n.toInt < 2 ^ 30 := by
  have h := zigzagEncode_eq n
  split at h <;> omega

/-! ## Lists of integers -/

/-- Write the codes of integers, one after another. -/
def writeSigned (w : BitWriter) (xs : List (BitVec 32)) : Except Overflow BitWriter :=
  xs.foldlM (fun w x => writeExpGolomb w (zigzagEncode x)) w

/-- Read codes, one after another. -/
def readCodes : ℕ → BitDecoder (List ℕ)
  | 0 => return []
  | k + 1 => do
    let n ← readExpGolomb
    let ns ← readCodes k
    return n :: ns

/-- Read integers, one after another. -/
def readSigned (k : ℕ) : BitDecoder (List (BitVec 32)) := do
  let ns ← readCodes k
  return ns.map zigzagDecode

/-- Integers are written as their codes. -/
theorem writeSigned_holds {w : BitWriter} {bs : List Bool} (h : w.Holds bs)
    {xs : List (BitVec 32)} (hxs : ∀ x ∈ xs, zigzagEncode x + 1 < 2 ^ 32) :
    ∃ w', writeSigned w xs = .ok w' ∧
      w'.Holds (bs ++ xs.flatMap fun x => expGolomb (zigzagEncode x)) := by
  induction xs generalizing w bs with
  | nil => exact ⟨w, rfl, by simpa using h⟩
  | cons x xs ih =>
    obtain ⟨hx, hxs⟩ := List.forall_mem_cons.mp hxs
    obtain ⟨w₁, hwrite, h₁⟩ := writeExpGolomb_holds h hx
    obtain ⟨w', hrest, h'⟩ := ih h₁ hxs
    rw [List.append_assoc] at h'
    refine ⟨w', ?_, h'⟩
    unfold writeSigned
    rw [List.foldlM_cons, hwrite]
    exact hrest

/-- Codes are read back. -/
theorem readCodes_codes {r : BitReader} {bs : List Bool} {ns : List ℕ}
    (hns : ∀ n ∈ ns, n + 1 < 2 ^ 31) (h : r.Ahead (ns.flatMap expGolomb ++ bs)) :
    ∃ r', readCodes ns.length r = .ok (ns, r') ∧ r'.Ahead bs := by
  induction ns generalizing r with
  | nil => exact ⟨r, rfl, h⟩
  | cons n ns ih =>
    obtain ⟨hn, hns⟩ := List.forall_mem_cons.mp hns
    rw [List.flatMap_cons, List.append_assoc] at h
    obtain ⟨r₁, hread, h₁⟩ := readExpGolomb_code hn h
    obtain ⟨r', hrest, h'⟩ := ih hns h₁
    refine ⟨r', ?_, h'⟩
    rw [List.length_cons, readCodes, bitDecoder_bind hread, bitDecoder_bind hrest]
    rfl

/-! ## Reading any bytes -/

/-- Counting zeros ends at a one, unless there are too many zeros or no one at all. -/
theorem readZeros_any {r : BitReader} {bs : List Bool} (fuel m : ℕ) (h : r.Ahead bs) :
    readZeros fuel m r = .error (.rejected .truncated) ∨
      ∃ k r' bs', k < fuel ∧ bs = List.replicate k false ++ true :: bs' ∧
        readZeros fuel m r = .ok (m + k, r') ∧ r'.Ahead bs' := by
  induction fuel generalizing r bs m with
  | zero => exact .inl rfl
  | succ fuel ih =>
    rcases bs with - | ⟨b, bs⟩
    · exact .inl (bitDecoder_bind_error h.readBit_nil)
    · obtain ⟨r₁, hread, h₁⟩ := h.readBit
      rw [readZeros, bitDecoder_bind hread]
      cases b with
      | true => exact .inr ⟨0, r₁, bs, Nat.succ_pos fuel, rfl, rfl, h₁⟩
      | false =>
        rcases ih (m + 1) h₁ with herr | ⟨k, r', bs', hk, rfl, hzeros, h'⟩
        · exact .inl herr
        · refine .inr ⟨k + 1, r', bs', Nat.succ_lt_succ hk, rfl, ?_, h'⟩
          rw [← Nat.add_assoc, Nat.add_right_comm]
          exact hzeros

/-- Reading the bits after the zeros ends early when there are not enough. -/
theorem readValue_short {r : BitReader} {bits : List Bool} {m : ℕ} (val : ℕ)
    (hm : bits.length < m) (h : r.Ahead bits) :
    readValue m val r = .error (.rejected .truncated) := by
  induction bits generalizing r m val with
  | nil =>
    obtain ⟨m, rfl⟩ : ∃ m', m = m' + 1 := ⟨m - 1, by omega⟩
    exact bitDecoder_bind_error h.readBit_nil
  | cons b bits ih =>
    rw [List.length_cons] at hm
    obtain ⟨m, rfl⟩ : ∃ m', m = m' + 1 := ⟨m - 1, by omega⟩
    obtain ⟨r₁, hread, h₁⟩ := BitReader.Ahead.readBit h
    rw [readValue, bitDecoder_bind hread]
    exact ih _ (by omega) h₁

/-- Reading a code from any bits gives up, or takes the code of a value off them. The value was read
on without a bit lost, as it fits in 31 bits. -/
theorem readExpGolomb_any {r : BitReader} {bs : List Bool} (h : r.Ahead bs) :
    readExpGolomb r = .error (.rejected .truncated) ∨
      ∃ n r' bs', n + 1 < 2 ^ 31 ∧ bs = expGolomb n ++ bs' ∧
        readExpGolomb r = .ok (n, r') ∧ r'.Ahead bs' := by
  -- The zeros run out, or tell the length of the rest.
  rcases readZeros_any 31 0 h with herr | ⟨k, r₁, bs₁, hk, rfl, hzeros, h₁⟩
  · exact .inl (bitDecoder_bind_error herr)
  have hread :
      readExpGolomb r = (do let val ← readValue k 1; return val - 1 : BitDecoder ℕ) r₁ := by
    unfold readExpGolomb
    rw [bitDecoder_bind hzeros, Nat.zero_add]
  rw [hread]
  rcases Nat.lt_or_ge bs₁.length k with hshort | hlen
  · exact .inl (bitDecoder_bind_error (readValue_short 1 hshort h₁))
  · -- The next `k` bits are the rest of a code.
    obtain ⟨bits, bs', hbits, rfl⟩ : ∃ bits bs', bits.length = k ∧ bs₁ = bits ++ bs' :=
      ⟨bs₁.take k, bs₁.drop k, List.length_take_of_le hlen, (List.take_append_drop k bs₁).symm⟩
    subst hbits
    have hpow : 2 ^ bits.length ≤ 2 ^ 30 := Nat.pow_le_pow_right (by decide) (by omega)
    have hfit : (1 + 1) * 2 ^ bits.length ≤ 2 ^ 32 := by omega
    obtain ⟨r', hval, h'⟩ := readValue_bits hfit h₁
    have hbounds := ofMsb_bounds 1 bits
    refine .inr ⟨ofMsb 1 bits - 1, r', bs', by omega, ?_, bitDecoder_bind hval, h'⟩
    rw [expGolomb_ofMsb, List.append_assoc, List.cons_append]

/-- Reading codes from any bits gives up, or takes the codes of values off them. -/
theorem readCodes_any {r : BitReader} {bs : List Bool} (k : ℕ) (h : r.Ahead bs) :
    readCodes k r = .error (.rejected .truncated) ∨
      ∃ ns r' bs', ns.length = k ∧ (∀ n ∈ ns, n + 1 < 2 ^ 31) ∧
        bs = ns.flatMap expGolomb ++ bs' ∧ readCodes k r = .ok (ns, r') ∧ r'.Ahead bs' := by
  induction k generalizing r bs with
  | zero => exact .inr ⟨[], r, bs, rfl, List.forall_mem_nil _, rfl, rfl, h⟩
  | succ k ih =>
    rcases readExpGolomb_any h with herr | ⟨n, r₁, bs₁, hn, rfl, hread, h₁⟩
    · exact .inl (bitDecoder_bind_error herr)
    · rw [readCodes, bitDecoder_bind hread]
      rcases ih h₁ with herr | ⟨ns, r', bs', hlen, hns, rfl, hrest, h'⟩
      · exact .inl (bitDecoder_bind_error herr)
      · refine .inr ⟨n :: ns, r', bs', by rw [List.length_cons, hlen],
          List.forall_mem_cons.mpr ⟨hn, hns⟩, ?_, bitDecoder_bind hrest, h'⟩
        rw [List.flatMap_cons, List.append_assoc]

/-- The bit stream: integers of magnitude below `2^30` are written without overflow and read back
whatever bytes follow, and reading codes from any bytes gives up as truncated or takes codes of
values below `2^31` off the bits of the bytes. -/
theorem expGolomb_stream :
    (∀ xs : List (BitVec 32), (∀ x ∈ xs, |x.toInt| < 2 ^ 30) →
      ∃ w, writeSigned .new xs = .ok w ∧
        ∀ rest, ∃ r, readSigned xs.length (.new (w.finish ++ rest)) = .ok (xs, r)) ∧
    ∀ (data : List UInt8) (k : ℕ),
      readCodes k (.new data) = .error (.rejected .truncated) ∨
        ∃ ns r bs, ns.length = k ∧ (∀ n ∈ ns, n + 1 < 2 ^ 31) ∧
          bitsMsb data = ns.flatMap expGolomb ++ bs ∧
          readCodes k (.new data) = .ok (ns, r) ∧ r.Ahead bs := by
  constructor
  · intro xs hxs
    have hsmall : ∀ n ∈ xs.map zigzagEncode, n + 1 < 2 ^ 31 := by
      intro n hn
      obtain ⟨x, hx, rfl⟩ := List.mem_map.mp hn
      exact (zigzagEncode_lt_iff x).mpr (abs_lt.mp (hxs x hx))
    obtain ⟨w, hwrite, hw⟩ := writeSigned_holds BitWriter.holds_new fun x hx =>
      (hsmall _ (List.mem_map_of_mem hx)).trans (by decide)
    -- The padding of the last byte comes behind the codes.
    obtain ⟨pad, hpad⟩ := hw.finish
    refine ⟨w, hwrite, fun rest => ?_⟩
    have hahead := BitReader.ahead_new (w.finish ++ rest)
    rw [bitsMsb_append, hpad, List.nil_append, List.append_assoc,
      ← List.flatMap_map] at hahead
    obtain ⟨r, hread, -⟩ := readCodes_codes hsmall hahead
    rw [List.length_map] at hread
    refine ⟨r, ?_⟩
    unfold readSigned
    rw [bitDecoder_bind hread, List.map_map]
    have hid : zigzagDecode ∘ zigzagEncode = id := funext zigzagDecode_zigzagEncode
    rw [hid, List.map_id]
    rfl
  · intro data k
    exact readCodes_any k (BitReader.ahead_new data)

end LowBand.Platform.Motion
