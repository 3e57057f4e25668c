import LowBand.Lib.Bytes

/-!
# Digits in ASCII

Text is modelled by its bytes. `digitChar` is a digit of a base up to 16, `toDigit` reads one as
`char::to_digit(16)` does, and `hexEncode`/`hexDecode` write and read two digits a byte.
`padDigits` pads a number with zeros; numbers that fit are written differently (`padDigits_inj`) and
in the order of the numbers (`padDigits_lt`).
-/

namespace Lib

/-- The lower-case ASCII character of a digit below 16. -/
def digitChar (d : ℕ) : UInt8 := UInt8.ofNat (if d < 10 then 48 + d else 87 + d)

/-- `char::to_digit(16)` of a byte read as a character. -/
def toDigit (b : UInt8) : Option ℕ :=
  if 48 ≤ b ∧ b ≤ 57 then some (b.toNat - 48)
  else if 97 ≤ b ∧ b ≤ 102 then some (b.toNat - 87)
  else if 65 ≤ b ∧ b ≤ 70 then some (b.toNat - 55)
  else none

/-- A digit reads back as its value. -/
theorem toDigit_digitChar {d : ℕ} (h : d < 16) : toDigit (digitChar d) = some d := by
  have hall : ∀ d < 16, toDigit (digitChar d) = some d := by decide
  exact hall d h

/-- Digits are written differently. -/
theorem digitChar_inj {d d' : ℕ} (h : d < 16) (h' : d' < 16) (heq : digitChar d = digitChar d') :
    d = d' := by
  have := congrArg toDigit heq
  rw [toDigit_digitChar h, toDigit_digitChar h'] at this
  exact Option.some.inj this

/-! ## Hexadecimal bytes -/

/-- Two digits a byte, the high one first. -/
def hexEncode : List UInt8 → List UInt8
  | [] => []
  | b :: bs => digitChar (b.toNat / 16) :: digitChar (b.toNat % 16) :: hexEncode bs

/-- The bytes of a text of pairs of digits. -/
def hexDecode : List UInt8 → Option (List UInt8)
  | [] => some []
  | hi :: lo :: rest => do
    let hi ← toDigit hi
    let lo ← toDigit lo
    let bs ← hexDecode rest
    return UInt8.ofNat (hi * 16 + lo) :: bs
  | [_] => none

/-- Each byte takes two digits. -/
@[simp]
theorem length_hexEncode (bs : List UInt8) : (hexEncode bs).length = 2 * bs.length := by
  induction bs with
  | nil => rfl
  | cons b bs ih =>
    rw [hexEncode, List.length_cons, List.length_cons, ih, List.length_cons]
    omega

/-- Decoding undoes encoding. -/
theorem hexDecode_hexEncode (bs : List UInt8) : hexDecode (hexEncode bs) = some bs := by
  induction bs with
  | nil => rfl
  | cons b bs ih =>
    have hb : b.toNat < 256 := UInt8.toNat_lt b
    have hhi := toDigit_digitChar (d := b.toNat / 16) (by omega)
    have hlo := toDigit_digitChar (d := b.toNat % 16) (by omega)
    have hval : b.toNat / 16 * 16 + b.toNat % 16 = b.toNat := by omega
    simp only [hexEncode, hexDecode, hhi, hlo, ih, hval, Option.bind_eq_bind, Option.bind_some,
      Option.pure_def, UInt8.ofNat_toNat]

/-- The text is made of digits. -/
theorem mem_hexEncode {bs : List UInt8} {c : UInt8} (h : c ∈ hexEncode bs) :
    ∃ d < 16, c = digitChar d := by
  induction bs with
  | nil => exact absurd h List.not_mem_nil
  | cons b bs ih =>
    have hb : b.toNat < 256 := UInt8.toNat_lt b
    rw [hexEncode, List.mem_cons, List.mem_cons] at h
    rcases h with hhi | hlo | hrest
    · exact ⟨b.toNat / 16, by omega, hhi⟩
    · exact ⟨b.toNat % 16, by omega, hlo⟩
    · exact ih hrest

/-- `hexEncode` with its digits as characters. -/
def hexChars (bs : List UInt8) : List Char :=
  bs.flatMap fun b => [Nat.digitChar (b.toNat / 16), Nat.digitChar (b.toNat % 16)]

/-- The bytes of the digits. -/
theorem map_hexChars (bs : List UInt8) :
    (hexChars bs).map (fun c => UInt8.ofNat c.toNat) = hexEncode bs := by
  have hdigit : ∀ d < 16, UInt8.ofNat (Nat.digitChar d).toNat = digitChar d := by decide
  induction bs with
  | nil => rfl
  | cons b bs ih =>
    have hb : b.toNat < 256 := UInt8.toNat_lt b
    rw [hexEncode, ← hdigit (b.toNat / 16) (by omega), ← hdigit (b.toNat % 16) (by omega), ← ih]
    rfl

/-- Different bytes are written differently. -/
theorem hexChars_inj {bs bs' : List UInt8} (h : hexChars bs = hexChars bs') : bs = bs' := by
  have henc : hexEncode bs = hexEncode bs' := by rw [← map_hexChars, h, map_hexChars]
  have hdec := congrArg hexDecode henc
  rw [hexDecode_hexEncode, hexDecode_hexEncode] at hdec
  exact Option.some.inj hdec

/-- The text is made of digits. -/
theorem mem_hexChars {bs : List UInt8} {c : Char} (h : c ∈ hexChars bs) :
    ∃ d < 16, c = Nat.digitChar d := by
  obtain ⟨b, -, hc⟩ := List.mem_flatMap.mp h
  have hb : b.toNat < 256 := UInt8.toNat_lt b
  rcases List.mem_cons.mp hc with hhi | hlo
  · exact ⟨b.toNat / 16, by omega, hhi⟩
  · exact ⟨b.toNat % 16, by omega, List.mem_singleton.mp hlo⟩

/-! ## Zero-padded numbers -/

/-- The last `w` digits of a number in base `base`, the most significant first: the number padded
with zeros to width `w`, when it fits. -/
def padDigits (base : ℕ) : ℕ → ℕ → List UInt8
  | 0, _ => []
  | w + 1, n => padDigits base w (n / base) ++ [digitChar (n % base)]

/-- The width is the number of digits. -/
@[simp]
theorem length_padDigits (base w n : ℕ) : (padDigits base w n).length = w := by
  induction w generalizing n with
  | zero => rfl
  | succ w ih => simp [padDigits, ih]

/-- Padded numbers that fit are written differently. -/
theorem padDigits_inj {base w n m : ℕ} (hpos : 0 < base) (hbase : base ≤ 16)
    (hn : n < base ^ w) (hm : m < base ^ w) (h : padDigits base w n = padDigits base w m) :
    n = m := by
  induction w generalizing n m with
  | zero =>
    rw [pow_zero, Nat.lt_one_iff] at hn hm
    rw [hn, hm]
  | succ w ih =>
    obtain ⟨hdiv, hmod⟩ := List.append_inj h (by simp)
    have hd := ih (Nat.div_lt_of_lt_mul (by rwa [← pow_succ']))
      (Nat.div_lt_of_lt_mul (by rwa [← pow_succ'])) hdiv
    have hr := digitChar_inj ((Nat.mod_lt n hpos).trans_le hbase)
      ((Nat.mod_lt m hpos).trans_le hbase) (List.cons.inj hmod).1
    rw [← Nat.div_add_mod n base, ← Nat.div_add_mod m base, hd, hr]

/-- Digits are ordered as their values. -/
theorem digitChar_lt {d d' : ℕ} (h : d < d') (h' : d' < 16) : digitChar d < digitChar d' := by
  have hall : ∀ d' < 16, ∀ d < d', digitChar d < digitChar d' := by decide
  exact hall d' h' d h

/-- What follows two lists of one length does not change their order. -/
theorem append_lt_append {a b x y : List UInt8} (hlen : a.length = b.length) (h : a < b) :
    a ++ x < b ++ y := by
  induction a generalizing b with
  | nil =>
    obtain rfl : b = [] := List.eq_nil_of_length_eq_zero hlen.symm
    exact absurd h (List.lt_irrefl _)
  | cons c a ih =>
    cases b with
    | nil => simp at hlen
    | cons c' b =>
      rw [List.cons_append, List.cons_append, List.cons_lt_cons_iff]
      rcases List.cons_lt_cons_iff.mp h with hc | ⟨hc, hab⟩
      · exact Or.inl hc
      · exact Or.inr ⟨hc, ih (Nat.succ.inj hlen) hab⟩

/-- Padded numbers that fit are ordered as the numbers. -/
theorem padDigits_lt {base w n m : ℕ} (hpos : 0 < base) (hbase : base ≤ 16) (hm : m < base ^ w)
    (h : n < m) : padDigits base w n < padDigits base w m := by
  induction w generalizing n m with
  | zero =>
    rw [pow_zero, Nat.lt_one_iff] at hm
    omega
  | succ w ih =>
    rw [padDigits, padDigits]
    rcases (Nat.div_le_div_right h.le : n / base ≤ m / base).lt_or_eq with hlt | heq
    · exact append_lt_append (by simp)
        (ih (Nat.div_lt_of_lt_mul (by rwa [← pow_succ'])) hlt)
    · have hmod : n % base < m % base := by
        have hn := Nat.div_add_mod n base
        have hm' := Nat.div_add_mod m base
        rw [heq] at hn
        omega
      rw [heq]
      refine List.append_left_lt (List.cons_lt_cons_iff.mpr (Or.inl ?_))
      exact digitChar_lt hmod ((Nat.mod_lt m hpos).trans_le hbase)

/-- No digit is a colon. -/
theorem colon_notMem_padDigits {base : ℕ} (hpos : 0 < base) (hbase : base ≤ 16) (w n : ℕ) :
    58 ∉ padDigits base w n := by
  have hall : ∀ d < 16, digitChar d ≠ 58 := by decide
  induction w generalizing n with
  | zero => exact List.not_mem_nil
  | succ w ih =>
    rw [padDigits, List.mem_append, List.mem_singleton, not_or]
    exact ⟨ih _, (hall _ ((Nat.mod_lt n hpos).trans_le hbase)).symm⟩

end Lib
