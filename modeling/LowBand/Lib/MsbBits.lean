import LowBand.Lib.Bits

/-!
# Bit strings with the most significant bit first

Numbers and byte strings as bits, the most significant first. `ofMsb` reads a number on from its
leading bits, and undoes `msbBits` (`ofMsb_msbBits`).

`expGolomb n` is the Exp-Golomb code of order 0: as many zeros as `n + 1` has bits after its first
one, and then `n + 1`.
-/

namespace Lib

/-- The `n` low bits of `v`, the most significant first. -/
def msbBits (n v : ℕ) : List Bool := (natBits n v).reverse

/-- The bits of a byte string, each byte from its most significant bit. -/
def bitsMsb (bytes : List UInt8) : List Bool := bytes.flatMap fun b => msbBits 8 b.toNat

/-- The number that starts with the bits of `acc` and goes on with the bits given. -/
def ofMsb (acc : ℕ) (bits : List Bool) : ℕ := bits.foldl (fun acc b => 2 * acc + b.toNat) acc

/-- As many bits as asked for. -/
@[simp]
theorem length_msbBits (n v : ℕ) : (msbBits n v).length = n := by
  simp [msbBits]

/-- The highest bit comes first. -/
theorem msbBits_succ (n v : ℕ) : msbBits (n + 1) v = v.testBit n :: msbBits n v := by
  simp [msbBits, natBits_succ]

/-- A bit of a number. -/
theorem getElem?_msbBits {n v k : ℕ} (hk : k < n) :
    (msbBits n v)[k]? = some (v.testBit (n - 1 - k)) := by
  induction n generalizing k with
  | zero => exact absurd hk (Nat.not_lt_zero k)
  | succ n ih =>
    rw [msbBits_succ]
    cases k with
    | zero => simp
    | succ k =>
      rw [List.getElem?_cons_succ, ih (by omega)]
      congr 2
      omega

/-- One more bit of a number. -/
theorem take_succ_msbBits {n v k : ℕ} (hk : k < n) :
    (msbBits n v).take (k + 1) = (msbBits n v).take k ++ [v.testBit (n - 1 - k)] := by
  rw [List.take_add_one, getElem?_msbBits hk]
  rfl

/-- The leading bits of numbers that agree on them. -/
theorem take_msbBits_congr {n v w k : ℕ}
    (h : ∀ i < k, i < n → v.testBit (n - 1 - i) = w.testBit (n - 1 - i)) :
    (msbBits n v).take k = (msbBits n w).take k := by
  induction k with
  | zero => rfl
  | succ k ih =>
    have hfront := ih fun i hi => h i (Nat.lt_succ_of_lt hi)
    by_cases hk : k < n
    · rw [take_succ_msbBits hk, take_succ_msbBits hk, hfront, h k (Nat.lt_succ_self k) hk]
    · rw [List.take_of_length_le (by simp; omega), List.take_of_length_le (by simp; omega)]
      rwa [List.take_of_length_le (by simp; omega), List.take_of_length_le (by simp; omega)]
        at hfront

/-- The bits of two rows of bytes follow each other. -/
theorem bitsMsb_append (as bs : List UInt8) : bitsMsb (as ++ bs) = bitsMsb as ++ bitsMsb bs :=
  List.flatMap_append

/-- A byte has eight bits. -/
@[simp]
theorem length_bitsMsb (bytes : List UInt8) : (bitsMsb bytes).length = 8 * bytes.length := by
  induction bytes with
  | nil => rfl
  | cons b bytes ih =>
    simp only [bitsMsb, List.flatMap_cons, List.length_append, length_msbBits,
      List.length_cons] at ih ⊢
    omega

/-- A bit of a byte string, by the byte it is in. -/
theorem getElem?_bitsMsb {bytes : List UInt8} {i k : ℕ} (hk : k < 8) :
    (bitsMsb bytes)[8 * i + k]? = bytes[i]?.map fun byte => byte.toNat.testBit (7 - k) := by
  induction bytes generalizing i with
  | nil => simp [bitsMsb]
  | cons byte bytes ih =>
    have hcons : bitsMsb (byte :: bytes) = msbBits 8 byte.toNat ++ bitsMsb bytes := rfl
    have hlen : (msbBits 8 byte.toNat).length = 8 := length_msbBits 8 _
    rw [hcons]
    cases i with
    | zero =>
      rw [List.getElem?_append_left (by omega), Nat.mul_zero, Nat.zero_add, getElem?_msbBits hk]
      rfl
    | succ i =>
      rw [List.getElem?_append_right (by omega), hlen,
        show 8 * (i + 1) + k - 8 = 8 * i + k by omega, ih, List.getElem?_cons_succ]

/-- The bits of a number read on. -/
theorem ofMsb_msbBits (acc n v : ℕ) : ofMsb acc (msbBits n v) = acc * 2 ^ n + v % 2 ^ n := by
  induction n generalizing acc with
  | zero => simp [ofMsb, msbBits, natBits, Nat.mod_one]
  | succ n ih =>
    have hbit := Nat.toNat_testBit v n
    rw [msbBits_succ]
    change ofMsb (2 * acc + (v.testBit n).toNat) (msbBits n v) = _
    rw [ih, Nat.mod_pow_succ, ← hbit, pow_succ]
    ring

/-- The size of a number read on. -/
theorem ofMsb_bounds (acc : ℕ) (bits : List Bool) :
    acc * 2 ^ bits.length ≤ ofMsb acc bits ∧ ofMsb acc bits < (acc + 1) * 2 ^ bits.length := by
  induction bits generalizing acc with
  | nil => exact ⟨(Nat.mul_one acc).le, (Nat.lt_succ_self acc).trans_eq (Nat.mul_one _).symm⟩
  | cons b bits ih =>
    obtain ⟨hle, hlt⟩ := ih (2 * acc + b.toNat)
    have hb : b.toNat < 2 := b.toNat_lt
    rw [List.length_cons, pow_succ', ← Nat.mul_assoc, ← Nat.mul_assoc]
    constructor
    · calc acc * 2 * 2 ^ bits.length ≤ (2 * acc + b.toNat) * 2 ^ bits.length :=
          Nat.mul_le_mul_right _ (by omega)
        _ ≤ ofMsb acc (b :: bits) := hle
    · calc ofMsb acc (b :: bits) < (2 * acc + b.toNat + 1) * 2 ^ bits.length := hlt
        _ ≤ (acc + 1) * 2 * 2 ^ bits.length := Nat.mul_le_mul_right _ (by omega)

/-- The bits that a number was read on with are its low bits. -/
theorem msbBits_ofMsb (acc : ℕ) (bits : List Bool) :
    msbBits bits.length (ofMsb acc bits) = bits := by
  induction bits generalizing acc with
  | nil => rfl
  | cons b bits ih =>
    have hstep : ofMsb acc (b :: bits) = ofMsb (2 * acc + b.toNat) bits := rfl
    obtain ⟨hle, hlt⟩ := ofMsb_bounds (2 * acc + b.toNat) bits
    have hdiv : ofMsb (2 * acc + b.toNat) bits / 2 ^ bits.length = 2 * acc + b.toNat :=
      Nat.div_eq_of_lt_le hle hlt
    have hbit : (ofMsb (2 * acc + b.toNat) bits).testBit bits.length = b := by
      rw [Nat.testBit_eq_decide_div_mod_eq, hdiv]
      cases b with
      | false => simp
      | true => simp [Nat.add_mod]
    rw [List.length_cons, msbBits_succ, hstep, hbit, ih]

/-! ## Exp-Golomb codes -/

/-- The Exp-Golomb code of order 0. -/
def expGolomb (n : ℕ) : List Bool :=
  List.replicate (n + 1).log2 false ++ msbBits ((n + 1).log2 + 1) (n + 1)

/-- The code is zeros, a one, and the bits after the first one of `n + 1`. -/
theorem expGolomb_eq (n : ℕ) :
    expGolomb n =
      List.replicate (n + 1).log2 false ++ true :: msbBits (n + 1).log2 (n + 1) := by
  have hbit : (n + 1).testBit (n + 1).log2 = true := Nat.testBit_log2 (Nat.succ_ne_zero n)
  unfold expGolomb
  rw [msbBits_succ, hbit]

/-- These bits, read on from the first one, are `n + 1`. -/
theorem ofMsb_expGolomb (n : ℕ) : ofMsb 1 (msbBits (n + 1).log2 (n + 1)) = n + 1 := by
  have hne : n + 1 ≠ 0 := Nat.succ_ne_zero n
  have hle : 2 ^ (n + 1).log2 ≤ n + 1 := Nat.log2_self_le hne
  have hlt : n + 1 < 2 ^ ((n + 1).log2 + 1) := Nat.lt_log2_self
  have hdiv : (n + 1) / 2 ^ (n + 1).log2 = 1 := by
    rw [pow_succ] at hlt
    exact Nat.div_eq_of_lt_le (by omega) (by omega)
  have hsplit := Nat.div_add_mod (n + 1) (2 ^ (n + 1).log2)
  rw [hdiv] at hsplit
  rw [ofMsb_msbBits]
  omega

/-- Zeros, a one and as many bits as there were zeros are a code. -/
theorem expGolomb_ofMsb (bits : List Bool) :
    expGolomb (ofMsb 1 bits - 1) = List.replicate bits.length false ++ true :: bits := by
  obtain ⟨hle, hlt⟩ := ofMsb_bounds 1 bits
  have hpos : 0 < 2 ^ bits.length := Nat.two_pow_pos _
  have hval : ofMsb 1 bits - 1 + 1 = ofMsb 1 bits := by omega
  have hlog : (ofMsb 1 bits).log2 = bits.length := by
    rw [Nat.log2_eq_iff (by omega), pow_succ]
    omega
  rw [expGolomb_eq, hval, hlog, msbBits_ofMsb]

end Lib
