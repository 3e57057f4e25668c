import LowBand.Lib.Bytes
import Mathlib.Data.Nat.Bitwise

/-!
# Bit strings

A number written with its least significant bit first, and a byte string read as bits, each byte
from its least significant bit. `natBits n v` are the `n` low bits of `v` and `ofBits` the number of
some bits; they undo each other (`ofBits_natBits`). `natBits_succ` and `ofBits_concat` add one bit
at the high end, as a writer and a reader do.
-/

namespace Lib

/-- The `n` low bits of `v`, the least significant first. -/
def natBits (n v : ℕ) : List Bool := (List.range n).map v.testBit

/-- The number whose bits are given, the least significant first. -/
def ofBits : List Bool → ℕ
  | [] => 0
  | b :: bs => b.toNat + 2 * ofBits bs

/-- The bits of a byte. -/
def byteBits (b : UInt8) : List Bool := natBits 8 b.toNat

/-- The bits of a byte string. -/
def bitsOfBytes (bytes : List UInt8) : List Bool := bytes.flatMap byteBits

/-- As many bits as asked for. -/
@[simp]
theorem length_natBits (n v : ℕ) : (natBits n v).length = n := by
  simp [natBits]

/-- A byte has eight bits. -/
@[simp]
theorem length_bitsOfBytes (bytes : List UInt8) :
    (bitsOfBytes bytes).length = 8 * bytes.length := by
  induction bytes with
  | nil => rfl
  | cons b bytes ih =>
    simp only [bitsOfBytes, List.flatMap_cons, List.length_append, byteBits, length_natBits,
      List.length_cons] at ih ⊢
    omega

/-- The next bit comes last. -/
theorem natBits_succ (n v : ℕ) : natBits (n + 1) v = natBits n v ++ [v.testBit n] := by
  simp [natBits, List.range_succ]

/-- A bit of a byte string, by the byte it is in. -/
theorem getElem?_bitsOfBytes {bytes : List UInt8} {i k : ℕ} (hk : k < 8) :
    (bitsOfBytes bytes)[8 * i + k]? = bytes[i]?.map fun byte => byte.toNat.testBit k := by
  induction bytes generalizing i with
  | nil => simp [bitsOfBytes]
  | cons byte bytes ih =>
    have hcons : bitsOfBytes (byte :: bytes) = byteBits byte ++ bitsOfBytes bytes := rfl
    have hlen : (byteBits byte).length = 8 := by simp [byteBits]
    rw [hcons]
    cases i with
    | zero =>
      rw [List.getElem?_append_left (by omega)]
      simp [byteBits, natBits, hk]
    | succ i =>
      rw [List.getElem?_append_right (by omega), hlen,
        show 8 * (i + 1) + k - 8 = 8 * i + k by omega, ih, List.getElem?_cons_succ]

/-- The low bits of numbers that agree on them. -/
theorem natBits_congr {n v w : ℕ} (h : ∀ i < n, v.testBit i = w.testBit i) :
    natBits n v = natBits n w :=
  List.map_congr_left fun i hi => h i (List.mem_range.mp hi)

/-- Two rows of bits, the second one above the first. -/
theorem ofBits_append (as bs : List Bool) :
    ofBits (as ++ bs) = ofBits as + 2 ^ as.length * ofBits bs := by
  induction as with
  | nil => simp [ofBits]
  | cons a as ih =>
    rw [List.cons_append, ofBits, ofBits, ih, List.length_cons, pow_succ]
    ring

/-- So many bits make a number below that power of two. -/
theorem ofBits_lt (bits : List Bool) : ofBits bits < 2 ^ bits.length := by
  induction bits with
  | nil => simp [ofBits]
  | cons b bits ih =>
    have hb : b.toNat < 2 := b.toNat_lt
    rw [ofBits, List.length_cons, pow_succ]
    omega

/-- A bit is added at the high end. -/
theorem ofBits_concat (bits : List Bool) (b : Bool) :
    ofBits (bits ++ [b]) = ofBits bits ||| b.toNat <<< bits.length := by
  have hone : ofBits [b] = b.toNat := by simp [ofBits]
  rw [ofBits_append, hone, Nat.or_comm, Nat.shiftLeft_eq, Nat.mul_comm b.toNat,
    ← Nat.two_pow_add_eq_or_of_lt (ofBits_lt bits), Nat.add_comm]

/-- The low bits of a number are the number, when it fits them. -/
theorem ofBits_natBits {n v : ℕ} (h : v < 2 ^ n) : ofBits (natBits n v) = v := by
  have hmod : ∀ n, ofBits (natBits n v) = v % 2 ^ n := by
    intro n
    induction n with
    | zero => simp [natBits, ofBits, Nat.mod_one]
    | succ n ih =>
      have hone : ofBits [v.testBit n] = (v.testBit n).toNat := by simp [ofBits]
      rw [natBits_succ, ofBits_append, ih, length_natBits, hone, Nat.mod_pow_succ,
        Nat.toNat_testBit]
  rw [hmod, Nat.mod_eq_of_lt h]

end Lib
