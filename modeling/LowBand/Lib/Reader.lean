import LowBand.Lib.Bytes
import LowBand.Lib.Result
import Mathlib.Tactic.Common

/-!
# Decoders of byte strings

A decoder that moves a slice forward as it reads is a `Reader`: a state of the bytes left and an
error. It reads only through `takeN`, which fails when there are too few bytes, so no read is out of
bounds.

For each reader there is one lemma that says exactly when it succeeds: what it read is the encoding
of what it returns, and the rest is left. With `bind_ok` and `pure_ok` these lemmas turn the success
of a decoder, written with `do`, into an equation between the bytes and the fields.
-/

namespace Lib

/-- A decoder: it reads from the front of the bytes left. -/
abbrev Reader (ε : Type) := StateT (List UInt8) (Except ε)

namespace Reader

variable {ε α β : Type} {p : Reader ε α} {q : α → Reader ε β} {bs rest : List UInt8}

/-- A sequence of two reads succeeds when the second succeeds on what the first returns and
leaves. -/
theorem bind_ok {b : β} :
    (p >>= q) bs = .ok (b, rest) ↔ ∃ a mid, p bs = .ok (a, mid) ∧ q a mid = .ok (b, rest) := by
  change (p bs >>= fun (a, mid) => q a mid) = _ ↔ _
  rw [bind_eq_ok]
  exact ⟨fun ⟨(a, mid), h, h'⟩ => ⟨a, mid, h, h'⟩, fun ⟨a, mid, h, h'⟩ => ⟨(a, mid), h, h'⟩⟩

/-- `pure` returns its value and reads nothing. -/
theorem pure_ok {a b : α} : (pure a : Reader ε α) bs = .ok (b, rest) ↔ a = b ∧ bs = rest := by
  change Except.ok (a, bs) = _ ↔ _
  simp

/-- A thrown error is no success. -/
theorem throw_ok {e : ε} {b : α} : (throw e : Reader ε α) bs = .ok (b, rest) ↔ False := by
  change Except.error e = _ ↔ _
  simp

/-- `if c { return Err(e) }`. -/
def refuseIf (c : Prop) [Decidable c] (e : ε) : Reader ε Unit := if c then throw e else pure ()

/-- A refusal that does not happen reads nothing. -/
theorem refuseIf_ok {c : Prop} [Decidable c] {e : ε} {u : Unit} :
    refuseIf c e bs = .ok (u, rest) ↔ ¬ c ∧ bs = rest := by
  unfold refuseIf
  split
  · next h => simp [throw_ok, h]
  · next h => simp [pure_ok, h]

/-- `ok_or(e)?`. -/
def okOr (o : Option α) (e : ε) : Reader ε α :=
  match o with
  | some a => pure a
  | none => throw e

/-- A value that is there is given without reading. -/
theorem okOr_ok {o : Option α} {e : ε} {a : α} :
    okOr o e bs = .ok (a, rest) ↔ o = some a ∧ bs = rest := by
  cases o with
  | none => simp [okOr, throw_ok]
  | some b => simp [okOr, pure_ok]

/-- `split_at_checked(n)`, with the error of a slice that is too short. -/
def takeN (e : ε) (n : ℕ) : Reader ε (List UInt8) := fun bs =>
  if n ≤ bs.length then .ok (bs.take n, bs.drop n) else .error e

/-- So many bytes are read from the front. -/
theorem takeN_ok {e : ε} {n : ℕ} {head : List UInt8} :
    takeN e n bs = .ok (head, rest) ↔ head.length = n ∧ bs = head ++ rest := by
  unfold takeN
  constructor
  · intro h
    split at h
    · next hle =>
      obtain ⟨rfl, rfl⟩ := Prod.mk.inj (Except.ok.inj h)
      exact ⟨List.length_take_of_le hle, (List.take_append_drop n bs).symm⟩
    · simp at h
  · rintro ⟨rfl, rfl⟩
    simp

/-- `split_first`, with the error of an empty slice. -/
def takeByte (e : ε) : Reader ε UInt8
  | [] => .error e
  | b :: bs => .ok (b, bs)

/-- One byte is read from the front. -/
theorem takeByte_ok {e : ε} {b : UInt8} : takeByte e bs = .ok (b, rest) ↔ bs = b :: rest := by
  cases bs with
  | nil => simp [takeByte]
  | cons c bs => simp [takeByte]

/-- `take_u16`. -/
def takeU16 (e : ε) : Reader ε UInt16 := do
  let head ← takeN e 2
  pure (UInt16.ofNat (ofLE head))

/-- `take_u32`. -/
def takeU32 (e : ε) : Reader ε UInt32 := do
  let head ← takeN e 4
  pure (UInt32.ofNat (ofLE head))

/-- `take_u64`. -/
def takeU64 (e : ε) : Reader ε UInt64 := do
  let head ← takeN e 8
  pure (UInt64.ofNat (ofLE head))

/-- Little-endian bytes of a fixed width, read into a type of that width. -/
theorem takeLE_ok {e : ε} {n : ℕ} {ofNat : ℕ → α} {toNat : α → ℕ}
    (hof : ∀ x, x < 256 ^ n → toNat (ofNat x) = x) (hto : ∀ a, ofNat (toNat a) = a)
    (hlt : ∀ a, toNat a < 256 ^ n) {a : α} :
    (do let head ← takeN e n; pure (ofNat (ofLE head)) : Reader ε α) bs = .ok (a, rest) ↔
      bs = leBytes n (toNat a) ++ rest := by
  simp only [bind_ok, takeN_ok, pure_ok]
  constructor
  · rintro ⟨head, mid, ⟨hlen, rfl⟩, rfl, rfl⟩
    -- The bytes read are those of the number they make.
    have hhead := leBytes_ofLE head
    rw [hof _ (hlen ▸ ofLE_lt head), ← hlen, hhead]
  · rintro rfl
    refine ⟨leBytes n (toNat a), rest, ⟨length_leBytes _ _, rfl⟩, ?_, rfl⟩
    rw [ofLE_leBytes, Nat.mod_eq_of_lt (hlt a), hto]

/-- Two bytes are read as a number. -/
theorem takeU16_ok {e : ε} {x : UInt16} :
    takeU16 e bs = .ok (x, rest) ↔ bs = leBytes 2 x.toNat ++ rest :=
  takeLE_ok (fun _ h => UInt16.toNat_ofNat_of_lt' h) (fun _ => UInt16.ofNat_toNat)
    (fun x => x.toNat_lt)

/-- Four bytes are. -/
theorem takeU32_ok {e : ε} {x : UInt32} :
    takeU32 e bs = .ok (x, rest) ↔ bs = leBytes 4 x.toNat ++ rest :=
  takeLE_ok (fun _ h => UInt32.toNat_ofNat_of_lt' h) (fun _ => UInt32.ofNat_toNat)
    (fun x => x.toNat_lt)

/-- Eight bytes are. -/
theorem takeU64_ok {e : ε} {x : UInt64} :
    takeU64 e bs = .ok (x, rest) ↔ bs = leBytes 8 x.toNat ++ rest :=
  takeLE_ok (fun _ h => UInt64.toNat_ofNat_of_lt' h) (fun _ => UInt64.ofNat_toNat)
    (fun x => x.toNat_lt)

/-- A read succeeds exactly on the encodings of valid values. -/
def Reads (p : Reader ε α) (valid : α → Prop) (print : α → List UInt8) : Prop :=
  ∀ {bs : List UInt8} {a : α} {rest : List UInt8},
    p bs = .ok (a, rest) ↔ valid a ∧ bs = print a ++ rest

/-- A decoder that reads a value from the front of the bytes and drops the rest. -/
def decode (p : Reader ε α) (bs : List UInt8) : Except ε α := Prod.fst <$> p bs

/-- Bytes are decoded to a value exactly when it is valid and they begin with its encoding. -/
theorem Reads.decode_ok {valid : α → Prop} {print : α → List UInt8} (hp : Reads p valid print)
    {a : α} : p.decode bs = .ok a ↔ valid a ∧ print a <+: bs := by
  rw [decode, map_eq_ok]
  constructor
  · rintro ⟨⟨a', rest⟩, h, rfl⟩
    obtain ⟨hvalid, rfl⟩ := hp.mp h
    exact ⟨hvalid, List.prefix_append _ _⟩
  · rintro ⟨hvalid, rest, rfl⟩
    exact ⟨(a, rest), hp.mpr ⟨hvalid, rfl⟩, rfl⟩

/-- A read that is made `n` times. -/
def times (p : Reader ε α) : ℕ → Reader ε (List α)
  | 0 => pure []
  | n + 1 => do
    let a ← p
    let as ← times p n
    pure (a :: as)

/-- `times` succeeds on the encodings of a list of values. -/
theorem Reads.times_ok {print : α → List UInt8} {valid : α → Prop} (hp : Reads p valid print)
    {n : ℕ} {as : List α} :
    p.times n bs = .ok (as, rest) ↔
      as.length = n ∧ (∀ a ∈ as, valid a) ∧ bs = as.flatMap print ++ rest := by
  unfold Reads at hp
  induction n generalizing as bs rest with
  | zero =>
    rw [times, pure_ok]
    constructor
    · rintro ⟨rfl, rfl⟩
      simp
    · rintro ⟨hlen, -, rfl⟩
      obtain rfl := List.length_eq_zero_iff.mp hlen
      exact ⟨rfl, rfl⟩
  | succ n ih =>
    -- One value is read, then `n` more from what it leaves.
    simp only [times, bind_ok, pure_ok, hp, ih]
    constructor
    · rintro ⟨a, _, ⟨ha, rfl⟩, as, _, ⟨rfl, has, rfl⟩, rfl, rfl⟩
      exact ⟨rfl, by simpa using ⟨ha, has⟩, by simp⟩
    · rintro ⟨hlen, hall, rfl⟩
      cases as with
      | nil => simp at hlen
      | cons a as =>
        obtain ⟨ha, has⟩ := List.forall_mem_cons.mp hall
        exact ⟨a, _, ⟨ha, by simp⟩, as, rest, ⟨by simpa using hlen, has, rfl⟩, rfl, rfl⟩

end Reader

/-- `split_at_checked(n)`. -/
def splitAtChecked (n : ℕ) (bs : List UInt8) : Option (List UInt8 × List UInt8) :=
  if n ≤ bs.length then some (bs.take n, bs.drop n) else none

/-- A split gives a front part of the length asked for and the rest. -/
theorem splitAtChecked_eq_some {n : ℕ} {bs head tail : List UInt8} :
    splitAtChecked n bs = some (head, tail) ↔ head.length = n ∧ bs = head ++ tail := by
  unfold splitAtChecked
  constructor
  · intro h
    split at h
    · next hle =>
      obtain ⟨rfl, rfl⟩ := Prod.mk.inj (Option.some.inj h)
      exact ⟨List.length_take_of_le hle, (List.take_append_drop n bs).symm⟩
    · simp at h
  · rintro ⟨rfl, rfl⟩
    simp

/-! ## Text -/

/-- `as_bytes`. -/
def strBytes (s : String) : List UInt8 := s.toByteArray.data.toList

/-- `from_utf8`. -/
def fromUtf8 (bytes : List UInt8) : Option String := String.fromUTF8? ⟨bytes.toArray⟩

/-- Bytes are text exactly when they are the bytes of a string. -/
theorem fromUtf8_eq_some {bytes : List UInt8} {s : String} :
    fromUtf8 bytes = some s ↔ bytes = strBytes s := by
  unfold fromUtf8 String.fromUTF8? strBytes
  constructor
  · intro h
    split at h
    · obtain rfl := Option.some.inj h
      rfl
    · simp at h
  · rintro rfl
    exact dif_pos s.isValidUTF8

/-- The bytes of two strings follow each other. -/
theorem strBytes_append (s t : String) : strBytes (s ++ t) = strBytes s ++ strBytes t := by
  simp [strBytes, String.toByteArray_append]

/-- The bytes of a text are those of its characters. -/
theorem strBytes_ofList (cs : List Char) :
    strBytes (String.ofList cs) = cs.flatMap String.utf8EncodeChar := by
  simp [strBytes, List.utf8Encode, List.data_toByteArray]

/-- The bytes of ASCII characters. -/
theorem strBytes_ascii {cs : List Char} (h : ∀ c ∈ cs, c.toNat < 128) :
    strBytes (String.ofList cs) = cs.map fun c => UInt8.ofNat c.toNat := by
  have hchar : ∀ c ∈ cs, String.utf8EncodeChar c = [UInt8.ofNat c.toNat] := by
    intro c hc
    exact if_pos (Nat.le_of_lt_succ (h c hc))
  rw [strBytes_ofList]
  clear h
  induction cs with
  | nil => rfl
  | cons c cs ih =>
    obtain ⟨hc, hcs⟩ := List.forall_mem_cons.mp hchar
    rw [List.flatMap_cons, hc, ih hcs]
    rfl

end Lib
