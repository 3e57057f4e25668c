import Mathlib.Algebra.Order.Group.Nat
import Mathlib.Tactic.NormNum
import Mathlib.Tactic.Ring

/-!
# Byte strings of fixed length and little-endian integers

A Rust array `[u8; n]` is a `Bytes n`, a list of bytes that carries its length. `leBytes n x` are
the `n` bytes of `to_le_bytes`, with `x` truncated modulo `256^n` as an `as` cast does, and `ofLE`
is `from_le_bytes`. `readExact` is `Read::read_exact` into an `n`-byte buffer, on a reader that
still holds the bytes given.
-/

namespace Lib

/-- A byte string of exactly `n` bytes. -/
structure Bytes (n : ℕ) where
  /-- The bytes, in order. -/
  val : List UInt8
  /-- There are `n` of them. -/
  length_val : val.length = n
deriving DecidableEq

attribute [simp] Bytes.length_val

/-- Two byte strings of one length are equal when their bytes are. -/
theorem Bytes.ext_val {n : ℕ} {a b : Bytes n} (h : a.val = b.val) : a = b := by
  cases a; cases b; simp_all

/-- The byte string of `n` copies of one byte. -/
def Bytes.fill (n : ℕ) (b : UInt8) : Bytes n := ⟨List.replicate n b, List.length_replicate⟩

/-- There are bytes of every length. -/
instance {n : ℕ} : Inhabited (Bytes n) := ⟨Bytes.fill n 0⟩

/-- The first `n` bytes of a list, filled up with zeros when there are fewer. -/
def Bytes.ofList (n : ℕ) (l : List UInt8) : Bytes n :=
  ⟨l.take n ++ List.replicate (n - l.length) 0, by simp; omega⟩

/-- A list of the right length is its own `Bytes.ofList`. -/
theorem Bytes.ofList_val {n : ℕ} {l : List UInt8} (h : l.length = n) :
    (Bytes.ofList n l).val = l := by
  subst h
  simp [Bytes.ofList]

/-- `Bytes.ofList` undoes `Bytes.val`. -/
@[simp]
theorem Bytes.ofList_val_self {n : ℕ} (b : Bytes n) : Bytes.ofList n b.val = b :=
  Bytes.ext_val (Bytes.ofList_val b.length_val)

/-- The first `n` bytes of a list that starts with a byte string of length `n`. -/
@[simp]
theorem Bytes.ofList_append {n : ℕ} (b : Bytes n) (l : List UInt8) :
    Bytes.ofList n (b.val ++ l) = b := by
  apply Bytes.ext_val
  simp [Bytes.ofList]

/-- A list of at least `n` bytes is its first `n` bytes and the rest. -/
theorem Bytes.ofList_append_drop {n : ℕ} {l : List UInt8} (h : n ≤ l.length) :
    (Bytes.ofList n l).val ++ l.drop n = l := by
  simp [Bytes.ofList, Nat.sub_eq_zero_of_le h]

/-- The conversion `try_into` of a slice to an array of `n` bytes. -/
def Bytes.tryFrom (n : ℕ) (l : List UInt8) : Option (Bytes n) :=
  if h : l.length = n then some ⟨l, h⟩ else none

/-- The conversion succeeds on exactly the bytes of the array. -/
theorem Bytes.tryFrom_eq_some {n : ℕ} {l : List UInt8} {b : Bytes n} :
    Bytes.tryFrom n l = some b ↔ l = b.val := by
  constructor
  · intro h
    unfold Bytes.tryFrom at h
    split at h
    · exact congrArg Bytes.val (Option.some.inj h)
    · simp at h
  · rintro rfl
    simp [Bytes.tryFrom]

/-- Concatenations whose first parts have one length agree part by part. -/
theorem Bytes.append_inj {n : ℕ} {a b : Bytes n} {x y : List UInt8}
    (h : a.val ++ x = b.val ++ y) : a = b ∧ x = y := by
  obtain ⟨h1, h2⟩ := List.append_inj h (by simp)
  exact ⟨Bytes.ext_val h1, h2⟩

/-- `copy_from_slice` of `src` into the array, from place `start` on. -/
def Bytes.write {n : ℕ} (buf : Bytes n) (start : ℕ) (src : List UInt8) : Bytes n :=
  .ofList n (buf.val.take start ++ src ++ buf.val.drop (start + src.length))

/-- The bytes of the array after a copy that stays in bounds. -/
theorem Bytes.val_write {n : ℕ} (buf : Bytes n) {start : ℕ} {src : List UInt8}
    (h : start + src.length ≤ n) :
    (buf.write start src).val =
      buf.val.take start ++ src ++ buf.val.drop (start + src.length) := by
  apply Bytes.ofList_val
  simp
  omega

/-- Two copies, one after the other, are one copy. -/
theorem Bytes.write_write {n : ℕ} (buf : Bytes n) {start : ℕ} {x y : List UInt8}
    (h : start + x.length + y.length ≤ n) :
    (buf.write start x).write (start + x.length) y = buf.write start (x ++ y) := by
  apply Bytes.ext_val
  have hx : start + x.length ≤ n := by omega
  have hhead : (buf.val.take start ++ x).length = start + x.length := by
    simp
    omega
  rw [val_write _ h, val_write _ hx, val_write _ (by rw [List.length_append]; omega),
    List.take_left' hhead, ← hhead, List.drop_append, List.drop_of_length_le (by simp), hhead]
  simp only [List.nil_append, List.length_append, List.drop_drop, List.append_assoc]
  congr 4
  omega

/-! ## Little-endian integers -/

/-- The `n` little-endian bytes of `x`, taken modulo `256^n`. -/
def leBytes : ℕ → ℕ → List UInt8
  | 0, _ => []
  | n + 1, x => UInt8.ofNat x :: leBytes n (x / 256)

/-- The number whose little-endian bytes are given. -/
def ofLE : List UInt8 → ℕ
  | [] => 0
  | b :: bs => b.toNat + 256 * ofLE bs

/-- As many bytes as asked for, low byte first. -/
@[simp]
theorem length_leBytes (n x : ℕ) : (leBytes n x).length = n := by
  induction n generalizing x with
  | zero => rfl
  | succ n ih => simp [leBytes, ih]

/-- Reading back the little-endian bytes of `x` gives `x` truncated. -/
@[simp]
theorem ofLE_leBytes (n x : ℕ) : ofLE (leBytes n x) = x % 256 ^ n := by
  induction n generalizing x with
  | zero => simp [leBytes, ofLE, Nat.mod_one]
  | succ n ih =>
    rw [leBytes, ofLE, ih, UInt8.toNat_ofNat', pow_succ' 256 n, Nat.mod_mul]

/-- The number read from `n` bytes is below `256^n`. -/
theorem ofLE_lt (l : List UInt8) : ofLE l < 256 ^ l.length := by
  induction l with
  | nil => simp [ofLE]
  | cons b bs ih =>
    have hb := UInt8.toNat_lt b
    simp only [ofLE, List.length_cons, pow_succ']
    omega

/-- The little-endian bytes of the number read from a byte string are that string. -/
theorem leBytes_ofLE (l : List UInt8) : leBytes l.length (ofLE l) = l := by
  induction l with
  | nil => rfl
  | cons b bs ih =>
    have hb : b.toNat < 256 := UInt8.toNat_lt b
    have hdiv : (b.toNat + 256 * ofLE bs) / 256 = ofLE bs := by omega
    simp only [List.length_cons, leBytes, ofLE, hdiv, ih, List.cons.injEq, and_true]
    apply UInt8.toNat_inj.mp
    rw [UInt8.toNat_ofNat']
    omega

/-- Little-endian bytes determine a number that fits in them. -/
theorem leBytes_inj {n x y : ℕ} (hx : x < 256 ^ n) (hy : y < 256 ^ n)
    (h : leBytes n x = leBytes n y) : x = y := by
  have := congrArg ofLE h
  rwa [ofLE_leBytes, ofLE_leBytes, Nat.mod_eq_of_lt hx, Nat.mod_eq_of_lt hy] at this

/-- Little-endian bytes depend on the number modulo `256^n` only. -/
theorem leBytes_eq_of_mod_eq {n x y : ℕ} (h : x % 256 ^ n = y % 256 ^ n) :
    leBytes n x = leBytes n y := by
  have hx := leBytes_ofLE (leBytes n x)
  have hy := leBytes_ofLE (leBytes n y)
  rw [length_leBytes, ofLE_leBytes] at hx hy
  rw [← hx, ← hy, h]

/-- `u16::to_be_bytes`, and the same for other widths: the bytes with the most significant first. -/
def beBytes (n x : ℕ) : List UInt8 := (leBytes n x).reverse

/-- `u16::from_be_bytes`, and the same for other widths. -/
def ofBE (l : List UInt8) : ℕ := ofLE l.reverse

/-- As many bytes as asked for, high byte first. -/
@[simp]
theorem length_beBytes (n x : ℕ) : (beBytes n x).length = n := by
  simp [beBytes]

/-- Reading back the big-endian bytes of `x` gives `x` truncated. -/
@[simp]
theorem ofBE_beBytes (n x : ℕ) : ofBE (beBytes n x) = x % 256 ^ n := by
  simp [ofBE, beBytes]

/-- The big-endian bytes of the number read from a byte string are that string. -/
theorem beBytes_ofBE (l : List UInt8) : beBytes l.length (ofBE l) = l := by
  have h := leBytes_ofLE l.reverse
  rw [List.length_reverse] at h
  rw [beBytes, ofBE, h, List.reverse_reverse]

/-- The cast `as u32`. -/
def asU32 (x : ℕ) : ℕ := x % 2 ^ 32

/-- The cast keeps a number that fits. -/
theorem asU32_of_lt {x : ℕ} (h : x < 2 ^ 32) : asU32 x = x := Nat.mod_eq_of_lt h

/-- Four little-endian bytes read back are the cast. -/
theorem ofLE_leBytes_four (x : ℕ) : ofLE (leBytes 4 x) = asU32 x := ofLE_leBytes 4 x

/-- `i64::to_le_bytes`. -/
def leBytesI64 (x : ℤ) : List UInt8 := leBytes 8 (x % 2 ^ 64).toNat

/-- `i64::from_le_bytes`. -/
def ofLEI64 (l : List UInt8) : ℤ :=
  if ofLE l < 2 ^ 63 then ofLE l else (ofLE l : ℤ) - 2 ^ 64

/-- A signed number that fits reads back. -/
theorem ofLEI64_leBytesI64 {x : ℤ} (h : -2 ^ 63 ≤ x) (h' : x < 2 ^ 63) :
    ofLEI64 (leBytesI64 x) = x := by
  have hmod : (x % 2 ^ 64).toNat % 256 ^ 8 = (x % 2 ^ 64).toNat := by omega
  unfold ofLEI64 leBytesI64
  rw [ofLE_leBytes, hmod]
  split <;> omega

/-- `i16::to_le_bytes`. -/
def leBytesI16 (x : ℤ) : List UInt8 := leBytes 2 (x % 2 ^ 16).toNat

/-- `i16::from_le_bytes`. -/
def ofLEI16 (l : List UInt8) : ℤ :=
  if ofLE l < 2 ^ 15 then ofLE l else (ofLE l : ℤ) - 2 ^ 16

/-- An `i16` has two bytes. -/
@[simp]
theorem length_leBytesI16 (x : ℤ) : (leBytesI16 x).length = 2 := length_leBytes 2 _

/-- A signed number that fits reads back. -/
theorem ofLEI16_leBytesI16 {x : ℤ} (h : -2 ^ 15 ≤ x) (h' : x < 2 ^ 15) :
    ofLEI16 (leBytesI16 x) = x := by
  have hmod : (x % 2 ^ 16).toNat % 256 ^ 2 = (x % 2 ^ 16).toNat := by omega
  unfold ofLEI16 leBytesI16
  rw [ofLE_leBytes, hmod]
  split <;> omega

/-- The clamp to the range of `i16`. -/
def clampI16 (x : ℤ) : ℤ := max (-32768) (min x 32767)

/-- What is clamped is in range. -/
theorem clampI16_mem (x : ℤ) : -2 ^ 15 ≤ clampI16 x ∧ clampI16 x < 2 ^ 15 := by
  unfold clampI16
  omega

/-- The clamp keeps a number that fits, and no other. -/
theorem clampI16_eq_self_iff {x : ℤ} : clampI16 x = x ↔ -2 ^ 15 ≤ x ∧ x < 2 ^ 15 := by
  unfold clampI16
  omega

/-! ## Reading exactly `n` bytes -/

/-- `read_exact` on a reader that holds `r`: the next `n` bytes and what is left, or `none` at the
end of the input. -/
def readExact (n : ℕ) (r : List UInt8) : Option (Bytes n × List UInt8) :=
  if h : n ≤ r.length then some (⟨r.take n, by simpa using h⟩, r.drop n) else none

/-- A reader that starts with `n` bytes yields them. -/
@[simp]
theorem readExact_append {n : ℕ} (b : Bytes n) (r : List UInt8) :
    readExact n (b.val ++ r) = some (b, r) := by
  have hle : n ≤ (b.val ++ r).length := by simp
  simp only [readExact, hle, dite_true, Option.some.injEq, Prod.mk.injEq]
  exact ⟨Bytes.ext_val (List.take_left' b.length_val), List.drop_left' b.length_val⟩

/-- A reader with fewer than `n` bytes left fails. -/
theorem readExact_eq_none {n : ℕ} {r : List UInt8} (h : r.length < n) : readExact n r = none := by
  simp [readExact, Nat.not_le.mpr h]

/-- What `readExact` returns is a split of the reader. -/
theorem readExact_eq_some {n : ℕ} {r rest : List UInt8} {b : Bytes n}
    (h : readExact n r = some (b, rest)) : r = b.val ++ rest := by
  unfold readExact at h
  split at h
  · simp only [Option.some.injEq, Prod.mk.injEq] at h
    obtain ⟨rfl, rfl⟩ := h
    exact (List.take_append_drop n r).symm
  · simp at h

end Lib
