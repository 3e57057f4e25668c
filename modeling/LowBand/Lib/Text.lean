import LowBand.Lib.Reader
import Mathlib.Data.List.DropRight

/-!
# Texts of lines, words and numerals

What `str` offers for a text protocol, on the characters of a text: `lines`, `splitWhitespace`,
`trim`, and `fromStrRadix` for an unsigned type. What counts as whitespace is a parameter.

Each operation has a lemma for the texts that it is meant for: lines without line ends
(`lines_joined`), a second word (`splitWhitespace_second`), text between whitespace
(`trim_append_blanks`), numerals of a value that fits (`Numeral.fromStrRadix_digits`). The last two
sections are about texts as bytes: a byte below 128 is a character (`mem_strBytes_of_lt`), and what
follows a text in a text is a text (`fromUtf8_append`).
-/

namespace Lib

/-- A property of the elements of a list, checked one after the other. -/
theorem forall_mem_of_all {α : Type*} {P : α → Prop} [DecidablePred P] {l : List α}
    (h : l.all (fun a => decide (P a)) = true) : ∀ a ∈ l, P a :=
  fun a ha => of_decide_eq_true (List.all_eq_true.mp h a ha)

/-! ## Lines -/

section Lines

variable {α : Type*} [DecidableEq α]

/-- `split_inclusive`: pieces that end with the separator, the last one perhaps without it. -/
def splitInclusive (sep : α) : List α → List (List α)
  | [] => []
  | a :: s =>
    if a = sep then [a] :: splitInclusive sep s
    else
      match splitInclusive sep s with
      | [] => [[a]]
      | piece :: pieces => (a :: piece) :: pieces

/-- The piece up to the first separator. -/
theorem splitInclusive_append {sep : α} {l : List α} (h : sep ∉ l) (s : List α) :
    splitInclusive sep (l ++ sep :: s) = (l ++ [sep]) :: splitInclusive sep s := by
  induction l with
  | nil => exact if_pos rfl
  | cons a l ih =>
    obtain ⟨ha, hl⟩ := not_or.mp (mt List.mem_cons.mpr h)
    rw [List.cons_append, splitInclusive, if_neg (Ne.symm ha), ih hl]
    rfl

/-- A text without separator is one piece. -/
theorem splitInclusive_of_notMem {sep : α} {l : List α} (hne : l ≠ []) (h : sep ∉ l) :
    splitInclusive sep l = [l] := by
  induction l with
  | nil => exact absurd rfl hne
  | cons a l ih =>
    obtain ⟨ha, hl⟩ := not_or.mp (mt List.mem_cons.mpr h)
    rw [splitInclusive, if_neg (Ne.symm ha)]
    cases l with
    | nil => rfl
    | cons b l => rw [ih (List.cons_ne_nil b l) hl]

end Lines

/-- A line of `lines`: `\r` is dropped before the line feed only. -/
def stripLineEnd (piece : List Char) : List Char :=
  if piece.getLast? = some '\n' then
    let line := piece.dropLast
    if line.getLast? = some '\r' then line.dropLast else line
  else piece

/-- `str::lines`. -/
def lines (s : List Char) : List (List Char) := (splitInclusive '\n' s).map stripLineEnd

/-- Lines joined by `\r\n` are the lines of the text. -/
theorem lines_joined {first : List Char} {rest : List (List Char)}
    (hne : ∀ l ∈ first :: rest, l ≠ []) (hlf : ∀ l ∈ first :: rest, '\n' ∉ l) :
    lines (first ++ rest.flatMap fun l => '\r' :: '\n' :: l) = first :: rest := by
  -- By induction on the lines behind the first.
  induction rest generalizing first with
  | nil =>
    have hfirst := hlf first List.mem_cons_self
    have hkeep : stripLineEnd first = first := by
      refine if_neg fun hlast => ?_
      exact hfirst (List.mem_of_getLast? hlast)
    rw [List.flatMap_nil, List.append_nil, lines,
      splitInclusive_of_notMem (hne first List.mem_cons_self) hfirst, List.map_singleton, hkeep]
  | cons l rest ih =>
    have hfirst : '\n' ∉ first ++ ['\r'] := by
      rw [List.mem_append, List.mem_singleton, not_or]
      exact ⟨hlf first List.mem_cons_self, by decide⟩
    -- The line ending that `lines` strips is the one the join put there.
    have hstrip : stripLineEnd (first ++ ['\r'] ++ ['\n']) = first := by
      simp [stripLineEnd]
    have hjoin : first ++ (l :: rest).flatMap (fun l => '\r' :: '\n' :: l) =
        (first ++ ['\r']) ++ '\n' :: (l ++ rest.flatMap fun l => '\r' :: '\n' :: l) := by
      simp
    have hrest := ih (fun m hm => hne m (List.mem_cons_of_mem _ hm))
      (fun m hm => hlf m (List.mem_cons_of_mem _ hm))
    rw [hjoin, lines, splitInclusive_append hfirst, List.map_cons, hstrip]
    exact congrArg (first :: ·) hrest

/-- A text up to its first separator. -/
theorem append_singleton_isPrefix_iff {α : Type*} {sep : α} {l l' r : List α} (hl : sep ∉ l)
    (hl' : sep ∉ l') : l ++ [sep] <+: l' ++ sep :: r ↔ l' = l := by
  constructor
  · intro h
    -- Letter by letter: the separator stands in neither word.
    induction l generalizing l' with
    | nil =>
      cases l' with
      | nil => rfl
      | cons a l' =>
        obtain rfl := (List.cons_prefix_cons.mp h).1
        exact absurd List.mem_cons_self hl'
    | cons a l ih =>
      cases l' with
      | nil =>
        obtain rfl := (List.cons_prefix_cons.mp h).1
        exact absurd List.mem_cons_self hl
      | cons b l' =>
        obtain ⟨rfl, hrest⟩ := List.cons_prefix_cons.mp h
        rw [ih (fun hmem => hl (List.mem_cons_of_mem _ hmem))
          (fun hmem => hl' (List.mem_cons_of_mem _ hmem)) hrest]
  · rintro rfl
    exact ⟨r, by simp⟩

/-! ## Words and margins -/

section Words

variable {α : Type*} {ws : α → Bool}

/-- `str::split_whitespace`. -/
def splitWhitespace (ws : α → Bool) (s : List α) : List (List α) :=
  (s.splitOnP ws).filter fun word => !word.isEmpty

/-- The second word of a text that begins with two words. -/
theorem splitWhitespace_second {v w rest : List α} {sep : α} (hv : v ≠ []) (hw : w ≠ [])
    (hvws : ∀ c ∈ v, ws c = false) (hwws : ∀ c ∈ w, ws c = false) (hsep : ws sep = true)
    (hrest : ∀ c ∈ rest.head?, ws c = true) :
    (splitWhitespace ws (v ++ sep :: (w ++ rest)))[1]? = some w := by
  have hfirst := List.splitOnP_append_cons_of_forall_mem hvws sep hsep (w ++ rest)
  have hsecond : ∃ words, (w ++ rest).splitOnP ws = w :: words := by
    cases rest with
    | nil => exact ⟨[], by rw [List.append_nil, List.splitOnP_eq_singleton hwws]⟩
    | cons c rest =>
      exact ⟨_, List.splitOnP_append_cons_of_forall_mem hwws c (hrest c rfl) rest⟩
  obtain ⟨words, hwords⟩ := hsecond
  rw [splitWhitespace, hfirst, hwords, List.filter_cons_of_pos (by simp [hv]),
    List.filter_cons_of_pos (by simp [hw])]
  rfl

/-- `str::trim`. -/
def trim (ws : α → Bool) (s : List α) : List α := (s.dropWhile ws).rdropWhile ws

/-- A text is trimmed from its first character that is no whitespace on. -/
theorem dropWhile_of_head {l r : List α} (hl : l ≠ []) (h : ∀ c ∈ l.head?, ws c = false) :
    (l ++ r).dropWhile ws = l ++ r := by
  cases l with
  | nil => exact absurd rfl hl
  | cons a l => exact List.dropWhile_cons_of_neg (by simp [h a rfl])

/-- Trimming the end does not go past a character that is no whitespace. -/
theorem rdropWhile_append_cons {c : α} (hc : ws c = false) (l r : List α) :
    (l ++ c :: r).rdropWhile ws = l ++ c :: r.rdropWhile ws := by
  induction r using List.reverseRecOn with
  | nil => exact List.rdropWhile_concat_neg ws l c (by simp [hc])
  | append_singleton r a ih =>
    rw [show l ++ c :: (r ++ [a]) = (l ++ c :: r) ++ [a] by simp]
    by_cases ha : ws a = true
    · rw [List.rdropWhile_concat_pos ws _ a ha, ih, List.rdropWhile_concat_pos ws r a ha]
    · rw [List.rdropWhile_concat_neg ws _ a ha, List.rdropWhile_concat_neg ws r a ha]
      simp

/-- A text without whitespace is what is left of it between whitespace. -/
theorem trim_append_blanks {l blanks : List α} (hl : l ≠ []) (h : ∀ c ∈ l, ws c = false)
    (hblanks : ∀ c ∈ blanks, ws c = true) : trim ws (l ++ blanks) = l := by
  have hhead : ∀ c ∈ l.head?, ws c = false := fun c hc => h c (List.mem_of_mem_head? hc)
  rw [trim, dropWhile_of_head hl hhead]
  obtain ⟨l, a, rfl⟩ := (List.eq_nil_or_concat' l).resolve_left hl
  have ha : ws a = false := h a (by simp)
  have hnil : blanks.rdropWhile ws = [] := List.rdropWhile_eq_nil_iff.mpr hblanks
  rw [List.append_assoc, List.singleton_append, rdropWhile_append_cons ha, hnil]

end Words

/-! ## Numerals -/

/-- `char::to_digit`. -/
def charDigit (radix : ℕ) (c : Char) : Option ℕ :=
  let digit :=
    if '0' ≤ c ∧ c ≤ '9' then some (c.toNat - 48)
    else if 'a' ≤ c ∧ c ≤ 'z' then some (c.toNat - 87)
    else if 'A' ≤ c ∧ c ≤ 'Z' then some (c.toNat - 55)
    else none
  digit.filter (· < radix)

/-- The digits of a numeral behind those that make `acc`, for a type with `bound` values. -/
def digitsValue (radix bound : ℕ) : ℕ → List Char → Option ℕ
  | acc, [] => some acc
  | acc, c :: s => do
    let digit ← charDigit radix c
    if acc * radix + digit < bound then digitsValue radix bound (acc * radix + digit) s else none

/-- `from_str_radix` of an unsigned type with `bound` values. -/
def fromStrRadix (radix bound : ℕ) : List Char → Option ℕ
  | [] => none
  | ['+'] => none
  | '+' :: s => digitsValue radix bound 0 s
  | s => digitsValue radix bound 0 s

/-- A numeral of a value, perhaps with zeros in front. -/
structure Numeral (radix n : ℕ) where
  /-- The digits. -/
  digits : List Char
  /-- Their values. -/
  values : List ℕ
  ne_nil : digits ≠ []
  map_digits : digits.map (charDigit radix) = values.map some
  value : values.foldl (fun acc digit => acc * radix + digit) 0 = n

/-- Reading on makes a number no smaller. -/
theorem le_foldl_digits {radix : ℕ} (hradix : 0 < radix) (values : List ℕ) (acc : ℕ) :
    acc ≤ values.foldl (fun acc digit => acc * radix + digit) acc := by
  induction values generalizing acc with
  | nil => exact le_refl acc
  | cons digit values ih =>
    calc acc ≤ acc * radix := Nat.le_mul_of_pos_right acc hradix
      _ ≤ acc * radix + digit := Nat.le_add_right _ _
      _ ≤ _ := ih _

/-- Digits whose value fits are read as their value. -/
theorem digitsValue_eq_some {radix bound : ℕ} (hradix : 0 < radix) {digits : List Char}
    {values : List ℕ} (hmap : digits.map (charDigit radix) = values.map some) {acc : ℕ}
    (hfits : values.foldl (fun acc digit => acc * radix + digit) acc < bound) :
    digitsValue radix bound acc digits =
      some (values.foldl (fun acc digit => acc * radix + digit) acc) := by
  induction digits generalizing values acc with
  | nil =>
    obtain rfl : values = [] := List.map_eq_nil_iff.mp hmap.symm
    rfl
  | cons c digits ih =>
    cases values with
    | nil => simp at hmap
    | cons digit values =>
      obtain ⟨hc, hrest⟩ := List.cons.inj hmap
      have hstep : acc * radix + digit < bound :=
        lt_of_le_of_lt (le_foldl_digits hradix values _) hfits
      rw [digitsValue, hc, Option.bind_eq_bind, Option.bind_some, if_pos hstep]
      exact ih hrest hfits

/-- Text with a character that is no digit is not read. -/
theorem digitsValue_eq_none {radix bound : ℕ} {s : List Char} {c : Char} (hc : c ∈ s)
    (hdigit : charDigit radix c = none) (acc : ℕ) : digitsValue radix bound acc s = none := by
  induction s generalizing acc with
  | nil => cases hc
  | cons a s ih =>
    rw [digitsValue]
    cases ha : charDigit radix a with
    | none => rfl
    | some digit =>
      have hs : c ∈ s := by
        rcases List.mem_cons.mp hc with rfl | hs
        · rw [hdigit] at ha
          cases ha
        · exact hs
      rw [Option.bind_eq_bind, Option.bind_some]
      split
      · exact ih hs _
      · rfl

/-- Digits are among the ASCII digits and letters. -/
theorem toNat_of_charDigit {radix : ℕ} {c : Char} (h : charDigit radix c ≠ none) :
    (48 ≤ c.toNat ∧ c.toNat ≤ 57) ∨ (97 ≤ c.toNat ∧ c.toNat ≤ 122) ∨
      (65 ≤ c.toNat ∧ c.toNat ≤ 90) := by
  by_contra hout
  push Not at hout
  obtain ⟨hdec, hlow, hup⟩ := hout
  refine h ?_
  unfold charDigit
  rw [if_neg fun hc => (hdec hc.1).not_ge hc.2, if_neg fun hc => (hlow hc.1).not_ge hc.2,
    if_neg fun hc => (hup hc.1).not_ge hc.2]
  rfl

/-- Text that does not begin with a sign is read as digits. -/
theorem fromStrRadix_of_head {radix bound : ℕ} {s : List Char} (hs : s ≠ [])
    (hplus : s.head? ≠ some '+') : fromStrRadix radix bound s = digitsValue radix bound 0 s := by
  unfold fromStrRadix
  split
  · exact absurd rfl hs
  · exact absurd rfl hplus
  · exact absurd rfl hplus
  · rfl

namespace Numeral

variable {radix n : ℕ} (m : Numeral radix n)

/-- Each character of a numeral is a digit. -/
theorem charDigit_ne_none {c : Char} (hc : c ∈ m.digits) : charDigit radix c ≠ none := by
  have hmem := List.mem_map_of_mem (f := charDigit radix) hc
  rw [m.map_digits] at hmem
  obtain ⟨digit, -, hdigit⟩ := List.mem_map.mp hmem
  rw [← hdigit]
  exact Option.some_ne_none digit

/-- A numeral does not begin with a sign. -/
theorem head_ne_plus (rest : List Char) : (m.digits ++ rest).head? ≠ some '+' := by
  intro hhead
  rw [List.head?_append_of_ne_nil _ m.ne_nil] at hhead
  have hplus := toNat_of_charDigit (m.charDigit_ne_none (List.mem_of_mem_head? hhead))
  revert hplus
  decide

/-- A numeral of a value that fits is read as the value. -/
theorem fromStrRadix_digits {bound : ℕ} (hradix : 0 < radix) (hn : n < bound) :
    fromStrRadix radix bound m.digits = some n := by
  have hfits : m.values.foldl (fun acc digit => acc * radix + digit) 0 < bound := by
    rw [m.value]
    exact hn
  have hread := digitsValue_eq_some hradix m.map_digits hfits
  have hhead := m.head_ne_plus []
  rw [List.append_nil] at hhead
  rw [fromStrRadix_of_head m.ne_nil hhead, hread, m.value]

/-- A numeral with a character behind it that is no digit is not read. -/
theorem fromStrRadix_append {bound : ℕ} {rest : List Char} {c : Char} (hc : c ∈ rest)
    (hdigit : charDigit radix c = none) : fromStrRadix radix bound (m.digits ++ rest) = none := by
  rw [fromStrRadix_of_head (by simp [m.ne_nil]) (m.head_ne_plus rest)]
  exact digitsValue_eq_none (List.mem_append_right _ hc) hdigit 0

end Numeral

/-! ## Texts as bytes -/

/-- A byte below 128 of a character is the character. -/
theorem mem_utf8EncodeChar_of_lt {b : UInt8} {c : Char} (hb : b.toNat < 128)
    (hmem : b ∈ String.utf8EncodeChar c) : c.toNat = b.toNat := by
  have hc : c.val.toNat < 2 ^ 32 := c.val.toNat_lt
  have hcn : c.toNat = c.val.toNat := rfl
  unfold String.utf8EncodeChar at hmem
  simp only at hmem
  split_ifs at hmem with h1 h2 h3
  · rw [List.mem_singleton] at hmem
    rw [hmem, UInt8.toNat_ofNat', hcn]
    omega
  -- the other characters have only bytes from 128 on
  all_goals
    simp only [List.mem_cons, List.not_mem_nil, or_false] at hmem
    rcases hmem with rfl | rfl | rfl | rfl
    all_goals
      rw [UInt8.toNat_ofNat'] at hb
      omega

/-- A byte below 128 of a text is one of its characters. -/
theorem mem_strBytes_of_lt {b : UInt8} {cs : List Char} (hb : b.toNat < 128)
    (hmem : b ∈ strBytes (String.ofList cs)) : ∃ c ∈ cs, c.toNat = b.toNat := by
  rw [strBytes_ofList] at hmem
  obtain ⟨c, hc, hbc⟩ := List.mem_flatMap.mp hmem
  exact ⟨c, hc, mem_utf8EncodeChar_of_lt hb hbc⟩

/-- Only the empty text has no bytes. -/
theorem strBytes_ne_nil {cs : List Char} (h : cs ≠ []) : strBytes (String.ofList cs) ≠ [] := by
  obtain ⟨c, cs, rfl⟩ := List.exists_cons_of_ne_nil h
  have hne : String.utf8EncodeChar c ≠ [] := String.utf8EncodeChar_ne_nil
  rw [strBytes_ofList, List.flatMap_cons]
  exact List.append_ne_nil_of_left_ne_nil hne _

/-- The first character of bytes that go on as they like. -/
theorem utf8EncodeChar_append_inj {a c : Char} {x y : List UInt8}
    (h : String.utf8EncodeChar a ++ x = String.utf8EncodeChar c ++ y) : a = c ∧ x = y := by
  have hdecode : ∀ (c : Char) (x : List UInt8),
      ByteArray.utf8DecodeChar? (String.utf8EncodeChar c ++ x).toByteArray 0 = some c := by
    intro c x
    rw [List.toByteArray_append]
    exact ByteArray.utf8DecodeChar?_utf8EncodeChar_append
  have hac : a = c := by
    have ha := hdecode a x
    rw [h, hdecode c y] at ha
    exact (Option.some.inj ha).symm
  subst hac
  exact ⟨rfl, List.append_cancel_left h⟩

/-- What follows a text is a text when the whole is one. -/
theorem fromUtf8_append (cs : List Char) (bytes : List UInt8) :
    fromUtf8 (strBytes (String.ofList cs) ++ bytes) =
      (fromUtf8 bytes).map fun t => String.ofList (cs ++ t.toList) := by
  cases hbytes : fromUtf8 bytes with
  | some t =>
    obtain rfl := fromUtf8_eq_some.mp hbytes
    rw [Option.map_some, fromUtf8_eq_some, ← strBytes_append, String.ofList_append,
      String.ofList_toList]
  | none =>
    rw [Option.map_none, Option.eq_none_iff_forall_ne_some]
    intro s hs
    have hwhole := fromUtf8_eq_some.mp hs
    rw [← String.ofList_toList (s := s), strBytes_ofList, strBytes_ofList] at hwhole
    -- one character after the other is cancelled on both sides
    suffices ∀ ds : List Char, cs.flatMap String.utf8EncodeChar ++ bytes =
        ds.flatMap String.utf8EncodeChar → ∃ t, fromUtf8 bytes = some t by
      obtain ⟨t, ht⟩ := this s.toList hwhole
      rw [hbytes] at ht
      cases ht
    clear hwhole hs s
    induction cs with
    | nil =>
      intro ds hds
      rw [List.flatMap_nil, List.nil_append] at hds
      exact ⟨String.ofList ds, fromUtf8_eq_some.mpr (by rw [hds, strBytes_ofList])⟩
    | cons c cs ih =>
      intro ds hds
      cases ds with
      | nil =>
        have hne : String.utf8EncodeChar c ≠ [] := String.utf8EncodeChar_ne_nil
        simp [hne] at hds
      | cons d ds =>
        rw [List.flatMap_cons, List.append_assoc, List.flatMap_cons] at hds
        exact ih ds (utf8EncodeChar_append_inj hds).2

end Lib
