import LowBand.Lib.Ascii
import Mathlib.Data.List.TakeWhile

/-!
# Socket addresses in text

`SocketAddrV4.display` writes an address as `a.b.c.d:port` and `SocketAddrV4.parse` reads one as the
standard library does: decimal numbers up to the first other character, octets without leading
zeros, and nothing behind the port. An address that is written reads back as itself
(`parse_display`). `SocketAddrV6.parse` reads an address as `[groups%scope]:port`, with `::` for
groups of zeros and the last two groups possibly in the form of an IPv4 address.

Both parsers read nothing but the characters of addresses: each reader takes a front part of such
characters off the text (`Takes`), so a text with another character is no address
(`SocketAddrV4.chars_of_parse`, `SocketAddrV6.chars_of_parse`).
-/

namespace Lib

/-- An IPv4 address with a port. -/
structure SocketAddrV4 where
  /-- The first octet. -/
  a : UInt8
  /-- The second octet. -/
  b : UInt8
  /-- The third octet. -/
  c : UInt8
  /-- The fourth octet. -/
  d : UInt8
  /-- The port. -/
  port : UInt16
deriving DecidableEq

/-! ## Decimal numbers -/

/-- The decimal digits of a number. -/
def decimalDigits (n : ℕ) : List UInt8 := (Nat.toDigits 10 n).map fun c => UInt8.ofNat c.toNat

/-- A decimal digit. -/
def isDecimal (b : UInt8) : Bool := 48 ≤ b && b ≤ 57

/-- The number that a list of decimal digits denotes. -/
def ofDecimal (ds : List UInt8) : ℕ := ds.foldl (fun n d => 10 * n + (d.toNat - 48)) 0

/-- The number below `bound` at the front of a text; a number of several digits may start with a
zero only where `zeroPrefix` says so. -/
def readNumber (bound : ℕ) (zeroPrefix : Bool) (s : List UInt8) : Option (ℕ × List UInt8) :=
  let ds := s.takeWhile isDecimal
  if ds = [] ∨ (zeroPrefix = false ∧ ds.head? = some 48 ∧ 1 < ds.length) ∨ bound ≤ ofDecimal ds then
    none
  else some (ofDecimal ds, s.dropWhile isDecimal)

/-- The rest of a text that starts with the given character. -/
def readChar (c : UInt8) : List UInt8 → Option (List UInt8)
  | [] => none
  | b :: rest => if b = c then some rest else none

/-- The digits of a number are characters of the range `0` to `9`. -/
theorem toNat_of_mem_toDigits {n : ℕ} {c : Char} (h : c ∈ Nat.toDigits 10 n) :
    48 ≤ c.toNat ∧ c.toNat ≤ 57 := by
  have hdigit := Nat.isDigit_of_mem_toDigits (by decide) le_rfl h
  simp only [Char.isDigit, Bool.and_eq_true, decide_eq_true_eq] at hdigit
  exact hdigit

/-- A number is written in decimal digits. -/
theorem isDecimal_of_mem {n : ℕ} {b : UInt8} (h : b ∈ decimalDigits n) : isDecimal b := by
  obtain ⟨c, hc, rfl⟩ := List.mem_map.mp h
  obtain ⟨hlo, hhi⟩ := toNat_of_mem_toDigits hc
  have hlt : c.toNat < 256 := by omega
  have hnat : (UInt8.ofNat c.toNat).toNat = c.toNat := UInt8.toNat_ofNat_of_lt' hlt
  simp only [isDecimal, Bool.and_eq_true, decide_eq_true_eq, UInt8.le_iff_toNat_le, hnat]
  exact ⟨hlo, hhi⟩

/-- Written digits denote the number. -/
@[simp]
theorem ofDecimal_decimalDigits (n : ℕ) : ofDecimal (decimalDigits n) = n := by
  have hfold : ∀ (l : List Char) (init : ℕ), (∀ c ∈ l, c.toNat ≤ 57) →
      (l.map fun c => UInt8.ofNat c.toNat).foldl (fun n d => 10 * n + (d.toNat - 48)) init =
        Nat.ofDigitChars 10 l init := by
    intro l
    induction l with
    | nil => intro init _; rfl
    | cons c cs ih =>
      intro init hl
      have hlt : c.toNat < 256 := Nat.lt_of_le_of_lt (hl c List.mem_cons_self) (by decide)
      have hnat : (UInt8.ofNat c.toNat).toNat = c.toNat := UInt8.toNat_ofNat_of_lt' hlt
      rw [List.map_cons, List.foldl_cons, hnat, Nat.ofDigitChars_cons]
      exact ih _ fun x hx => hl x (List.mem_cons_of_mem c hx)
  rw [ofDecimal, decimalDigits, hfold _ 0 fun c hc => (toNat_of_mem_toDigits hc).2]
  exact Nat.ofDigitChars_ten_toDigits

/-- A number is written with at least one digit. -/
theorem decimalDigits_ne_nil (n : ℕ) : decimalDigits n ≠ [] := by
  simp [decimalDigits, Nat.toDigits_ne_nil]

/-- A written number reads back, up to a character that is no digit. -/
theorem readNumber_decimalDigits {n bound : ℕ} {zeroPrefix : Bool} {rest : List UInt8}
    (hn : n < bound) (hzero : zeroPrefix ∨ n < 256)
    (hrest : ∀ b ∈ rest.head?, isDecimal b = false) :
    readNumber bound zeroPrefix (decimalDigits n ++ rest) = some (n, rest) := by
  have htake : rest.takeWhile isDecimal = [] ∧ rest.dropWhile isDecimal = rest := by
    cases rest with
    | nil => exact ⟨rfl, rfl⟩
    | cons b bs => simp [hrest b rfl]
  have hds : (decimalDigits n ++ rest).takeWhile isDecimal = decimalDigits n := by
    rw [List.takeWhile_append_of_pos fun b hb => isDecimal_of_mem hb, htake.1, List.append_nil]
  have hdrop : (decimalDigits n ++ rest).dropWhile isDecimal = rest := by
    rw [List.dropWhile_append_of_pos fun b hb => isDecimal_of_mem hb, htake.2]
  -- a written octet has no leading zero; ports may have one
  have hlead : ∀ n < 256, ¬ ((decimalDigits n).head? = some 48 ∧ 1 < (decimalDigits n).length) := by
    decide +kernel
  rw [readNumber, hds, hdrop, ofDecimal_decimalDigits, if_neg]
  rintro (h | ⟨hfalse, h⟩ | h)
  · exact decimalDigits_ne_nil n h
  · rcases hzero with htrue | hlt
    · rw [htrue] at hfalse
      cases hfalse
    · exact hlead n hlt h
  · omega

/-! ## Addresses -/

namespace SocketAddrV4

/-- The text of an address. -/
def display (x : SocketAddrV4) : List UInt8 :=
  decimalDigits x.a.toNat ++ 46 :: (decimalDigits x.b.toNat ++ 46 :: (decimalDigits x.c.toNat ++
    46 :: (decimalDigits x.d.toNat ++ 58 :: decimalDigits x.port.toNat)))

/-- The address that a text is. -/
def parse (s : List UInt8) : Option SocketAddrV4 := do
  let (a, s) ← readNumber 256 false s
  let (b, s) ← readNumber 256 false (← readChar 46 s)
  let (c, s) ← readNumber 256 false (← readChar 46 s)
  let (d, s) ← readNumber 256 false (← readChar 46 s)
  let (port, s) ← readNumber 65536 true (← readChar 58 s)
  if s = [] then some ⟨.ofNat a, .ofNat b, .ofNat c, .ofNat d, .ofNat port⟩ else none

/-- A written address reads back as itself. -/
@[simp]
theorem parse_display (x : SocketAddrV4) : parse x.display = some x := by
  have hoctet : ∀ (o sep : UInt8) (rest : List UInt8), isDecimal sep = false →
      readNumber 256 false (decimalDigits o.toNat ++ sep :: rest) =
        some (o.toNat, sep :: rest) := by
    intro o sep rest hsep
    refine readNumber_decimalDigits o.toNat_lt (.inr o.toNat_lt) ?_
    rintro b hb
    obtain rfl := Option.some.inj hb
    exact hsep
  have hport : readNumber 65536 true (decimalDigits x.port.toNat) = some (x.port.toNat, []) := by
    have hread : readNumber 65536 true (decimalDigits x.port.toNat ++ []) =
        some (x.port.toNat, []) :=
      readNumber_decimalDigits x.port.toNat_lt (.inl rfl) (by simp)
    rwa [List.append_nil] at hread
  simp [parse, display, hoctet, hport, readChar, isDecimal]

end SocketAddrV4

/-! ## IPv6 addresses -/

/-- An IPv6 address with a port and a scope. -/
structure SocketAddrV6 where
  /-- The eight groups. -/
  groups : List UInt16
  /-- The scope. -/
  scope : UInt32
  /-- The port. -/
  port : UInt16
deriving DecidableEq

namespace SocketAddrV6

/-- A hexadecimal digit. -/
def isHex (b : UInt8) : Bool := (toDigit b).isSome

/-- The hexadecimal number of at most four digits at the front of a text. -/
def readHex (s : List UInt8) : Option (UInt16 × List UInt8) :=
  let ds := s.takeWhile isHex
  if ds = [] ∨ 4 < ds.length then none
  else some (.ofNat (ds.foldl (fun n d => 16 * n + (toDigit d).getD 0) 0), s.dropWhile isHex)

/-- The two groups of an IPv4 address at the front of a text. -/
def readOctets (s : List UInt8) : Option ((UInt16 × UInt16) × List UInt8) := do
  let (a, s) ← readNumber 256 false s
  let (b, s) ← readNumber 256 false (← readChar 46 s)
  let (c, s) ← readNumber 256 false (← readChar 46 s)
  let (d, s) ← readNumber 256 false (← readChar 46 s)
  return ((.ofNat (256 * a + b), .ofNat (256 * c + d)), s)

/-- The colon in front of every group except the first one. -/
def readSeparator (first : Bool) (s : List UInt8) : Option (List UInt8) :=
  if first then some s else readChar 58 s

/-- At most `limit` groups at the front of a text, whether they end in an IPv4 address, which takes
two groups, and the rest of the text. -/
def readGroups : (limit : ℕ) → (first : Bool) → List UInt8 → List UInt16 × Bool × List UInt8
  | 0, _, s => ([], false, s)
  | limit + 1, first, s =>
    match if 0 < limit then (readSeparator first s).bind readOctets else none with
    | some ((g, g'), rest) => ([g, g'], true, rest)
    | none =>
      match (readSeparator first s).bind readHex with
      | some (g, rest) =>
        let more := readGroups limit false rest
        (g :: more.1, more.2)
      | none => ([], false, s)

/-- The eight groups at the front of a text. Fewer than eight are filled up with zeros at a `::`,
which no IPv4 address may precede. -/
def readAddr (s : List UInt8) : Option (List UInt16 × List UInt8) :=
  let head := readGroups 8 true s
  if head.1.length = 8 then some (head.1, head.2.2)
  else if head.2.1 then none
  else do
    let s ← readChar 58 (← readChar 58 head.2.2)
    let tail := readGroups (7 - head.1.length) true s
    return (head.1 ++ List.replicate (8 - head.1.length - tail.1.length) 0 ++ tail.1, tail.2.2)

/-- The scope behind a percent sign, zero without one. -/
def readScope (s : List UInt8) : ℕ × List UInt8 :=
  ((readChar 37 s).bind (readNumber (2 ^ 32) true)).getD (0, s)

/-- The address that a text is. -/
def parse (s : List UInt8) : Option SocketAddrV6 := do
  let (groups, s) ← readAddr (← readChar 91 s)
  let (scope, s) := readScope s
  let (port, s) ← readNumber 65536 true (← readChar 58 (← readChar 93 s))
  if s = [] then some ⟨groups, .ofNat scope, .ofNat port⟩ else none

end SocketAddrV6

/-! ## The characters of addresses -/

/-- The hexadecimal digits, the period, the colon, the brackets and the percent sign. -/
def isAddrChar (b : UInt8) : Bool := (toDigit b).isSome || [46, 58, 91, 93, 37].contains b

/-- The rest of a text, behind characters of addresses. -/
def Takes (s rest : List UInt8) : Prop := ∃ pre, s = pre ++ rest ∧ ∀ b ∈ pre, isAddrChar b

/-- Nothing is taken. -/
theorem Takes.refl (s : List UInt8) : Takes s s := ⟨[], rfl, by simp⟩

/-- One part is taken behind another. -/
theorem Takes.trans {s t u : List UInt8} (h : Takes s t) (h' : Takes t u) : Takes s u := by
  obtain ⟨pre, rfl, hpre⟩ := h
  obtain ⟨pre', rfl, hpre'⟩ := h'
  refine ⟨pre ++ pre', (List.append_assoc _ _ _).symm, fun b hb => ?_⟩
  rcases List.mem_append.mp hb with hb | hb
  · exact hpre b hb
  · exact hpre' b hb

/-- A text that is taken as a whole. -/
theorem Takes.chars {s : List UInt8} (h : Takes s []) : ∀ b ∈ s, isAddrChar b := by
  obtain ⟨pre, rfl, hpre⟩ := h
  rwa [List.append_nil]

/-- The characters up to the first one that fails a test. -/
theorem takes_dropWhile {p : UInt8 → Bool} (hp : ∀ b, p b = true → isAddrChar b) (s : List UInt8) :
    Takes s (s.dropWhile p) :=
  ⟨s.takeWhile p, List.takeWhile_append_dropWhile.symm,
    fun b hb => hp b (List.mem_takeWhile_imp hb)⟩

/-- Reading a character takes a part of an address. -/
theorem takes_of_readChar {c : UInt8} {s rest : List UInt8} (hc : isAddrChar c)
    (h : readChar c s = some rest) : Takes s rest := by
  cases s with
  | nil => cases h
  | cons b s =>
    obtain ⟨rfl, rfl⟩ := Option.ite_none_right_eq_some.mp h |>.imp_right Option.some.inj
    exact ⟨[b], rfl, by simpa using hc⟩

/-- Reading a number does. -/
theorem takes_of_readNumber {bound n : ℕ} {zeroPrefix : Bool} {s rest : List UInt8}
    (h : readNumber bound zeroPrefix s = some (n, rest)) : Takes s rest := by
  have hdigit : ∀ b, isDecimal b = true → isAddrChar b := by
    intro b hb
    simp only [isDecimal, Bool.and_eq_true, decide_eq_true_eq] at hb
    simp [isAddrChar, toDigit, hb]
  unfold readNumber at h
  dsimp only at h
  split at h
  · cases h
  · obtain ⟨-, rfl⟩ := Prod.mk.inj (Option.some.inj h)
    exact takes_dropWhile hdigit s

/-- An IPv4 address has only the characters of addresses. -/
theorem SocketAddrV4.chars_of_parse {s : List UInt8} {x : SocketAddrV4} (h : parse s = some x) :
    ∀ b ∈ s, isAddrChar b := by
  simp only [parse, Option.bind_eq_bind, Option.bind_eq_some_iff, Prod.exists] at h
  obtain ⟨a, s₁, h₁, t₁, h₂, b, s₂, h₃, t₂, h₄, c, s₃, h₅, t₃, h₆, d, s₄, h₇, t₄, h₈, port, s₅,
    h₉, h⟩ := h
  obtain ⟨rfl, -⟩ := Option.ite_none_right_eq_some.mp h
  exact ((takes_of_readNumber h₁).trans <| (takes_of_readChar rfl h₂).trans <|
    (takes_of_readNumber h₃).trans <| (takes_of_readChar rfl h₄).trans <|
    (takes_of_readNumber h₅).trans <| (takes_of_readChar rfl h₆).trans <|
    (takes_of_readNumber h₇).trans <| (takes_of_readChar rfl h₈).trans <|
    takes_of_readNumber h₉).chars

namespace SocketAddrV6

/-- Reading a hexadecimal group does. -/
theorem takes_of_readHex {g : UInt16} {s rest : List UInt8} (h : readHex s = some (g, rest)) :
    Takes s rest := by
  have hdigit : ∀ b, isHex b = true → isAddrChar b := fun b hb => Bool.or_eq_true_iff.mpr (.inl hb)
  unfold readHex at h
  dsimp only at h
  split at h
  · cases h
  · obtain ⟨-, rfl⟩ := Prod.mk.inj (Option.some.inj h)
    exact takes_dropWhile hdigit s

/-- Reading the last two groups as octets does. -/
theorem takes_of_readOctets {g : UInt16 × UInt16} {s rest : List UInt8}
    (h : readOctets s = some (g, rest)) : Takes s rest := by
  simp only [readOctets, Option.bind_eq_bind, Option.bind_eq_some_iff, Prod.exists] at h
  obtain ⟨a, s₁, h₁, t₁, h₂, b, s₂, h₃, t₂, h₄, c, s₃, h₅, t₃, h₆, d, s₄, h₇, h⟩ := h
  obtain ⟨-, rfl⟩ := Prod.mk.inj (Option.some.inj h)
  exact (takes_of_readNumber h₁).trans <| (takes_of_readChar rfl h₂).trans <|
    (takes_of_readNumber h₃).trans <| (takes_of_readChar rfl h₄).trans <|
    (takes_of_readNumber h₅).trans <| (takes_of_readChar rfl h₆).trans <| takes_of_readNumber h₇

/-- Reading a separator does. -/
theorem takes_of_readSeparator {first : Bool} {s rest : List UInt8}
    (h : readSeparator first s = some rest) : Takes s rest := by
  cases first with
  | true => exact Option.some.inj h ▸ Takes.refl s
  | false => exact takes_of_readChar rfl h

/-- Reading groups does, however many there are. -/
theorem takes_readGroups (limit : ℕ) (first : Bool) (s : List UInt8) :
    Takes s (readGroups limit first s).2.2 := by
  induction limit generalizing first s with
  | zero => exact Takes.refl s
  | succ limit ih =>
    rw [readGroups]
    split
    · rename_i g g' rest hoctets
      obtain ⟨-, hoctets⟩ := Option.ite_none_right_eq_some.mp hoctets
      obtain ⟨t, hsep, hread⟩ := Option.bind_eq_some_iff.mp hoctets
      exact (takes_of_readSeparator hsep).trans (takes_of_readOctets hread)
    · split
      · rename_i g rest hhex
        obtain ⟨t, hsep, hread⟩ := Option.bind_eq_some_iff.mp hhex
        exact ((takes_of_readSeparator hsep).trans (takes_of_readHex hread)).trans (ih false rest)
      · exact Takes.refl s

/-- Reading an address does. -/
theorem takes_of_readAddr {gs : List UInt16} {s rest : List UInt8}
    (h : readAddr s = some (gs, rest)) : Takes s rest := by
  have hhead := takes_readGroups 8 true s
  unfold readAddr at h
  dsimp only at h
  split at h
  · obtain ⟨-, rfl⟩ := Prod.mk.inj (Option.some.inj h)
    exact hhead
  · split at h
    · cases h
    · simp only [Option.bind_eq_bind, Option.bind_eq_some_iff] at h
      obtain ⟨t₁, h₁, t₂, h₂, h⟩ := h
      obtain ⟨-, rfl⟩ := Prod.mk.inj (Option.some.inj h)
      exact hhead.trans <| (takes_of_readChar rfl h₁).trans <| (takes_of_readChar rfl h₂).trans <|
        takes_readGroups _ true t₂

/-- Reading a scope does. -/
theorem takes_readScope (s : List UInt8) : Takes s (readScope s).2 := by
  unfold readScope
  cases h : (readChar 37 s).bind (readNumber (2 ^ 32) true) with
  | none => exact Takes.refl s
  | some r =>
    obtain ⟨t, hchar, hread⟩ := Option.bind_eq_some_iff.mp h
    exact (takes_of_readChar rfl hchar).trans (takes_of_readNumber hread)

/-- An IPv6 address has only the characters of addresses. -/
theorem chars_of_parse {s : List UInt8} {x : SocketAddrV6} (h : parse s = some x) :
    ∀ b ∈ s, isAddrChar b := by
  simp only [parse, Option.bind_eq_bind, Option.bind_eq_some_iff, Prod.exists] at h
  obtain ⟨t₁, h₁, groups, s₁, h₂, t₂, h₃, t₃, h₄, port, s₂, h₅, h⟩ := h
  obtain ⟨rfl, -⟩ := Option.ite_none_right_eq_some.mp h
  exact ((takes_of_readChar rfl h₁).trans <| (takes_of_readAddr h₂).trans <|
    (takes_readScope s₁).trans <| (takes_of_readChar rfl h₃).trans <|
    (takes_of_readChar rfl h₄).trans <| takes_of_readNumber h₅).chars

end SocketAddrV6

end Lib
