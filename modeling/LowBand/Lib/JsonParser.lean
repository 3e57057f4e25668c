import LowBand.Lib.Ascii
import LowBand.Lib.Json

/-!
# A JSON parser

`Json.parse` is the grammar of JSON as a function: a text is well formed when it has a value. Each
part of it reads from the front of a text and returns the rest. A number is kept as it is written.
An escape that stands for half of a character has to be followed by the other half.

`Reads p follow t v ok` is what is known of a reader `p` on a text `t`, in front of rests that meet
`follow`: under the condition `ok` it reads `v` and leaves the rest, and when it reads `v` at all,
the condition holds. The rules put members into objects and elements into arrays, so that a document
has its intended value exactly when all parts meet their conditions (`Reads.parse_eq_some_iff`).

Strings that were written without all escapes are the interesting parts. `stringBody_rawText` says
what is read for one in which only the quotes were escaped, or nothing was: the string itself only
when nothing in it should have been escaped.
-/

namespace Lib

namespace Json

/-! ## Strings -/

/-- The value of a hexadecimal digit. -/
def hexValue (c : Char) : Option ℕ :=
  if c.isDigit then some (c.toNat - 48)
  else if 'a' ≤ c ∧ c ≤ 'f' then some (c.toNat - 87)
  else if 'A' ≤ c ∧ c ≤ 'F' then some (c.toNat - 55)
  else none

/-- Some hexadecimal digits, after those that were read. -/
def hexDigits : ℕ → ℕ → List Char → Option (ℕ × List Char)
  | 0, acc, s => some (acc, s)
  | _ + 1, _, [] => none
  | n + 1, acc, c :: s => (hexValue c).bind fun d => hexDigits n (acc * 16 + d) s

/-- The character of four hexadecimal digits, or of twice four for the two halves of one. -/
def codePoint (s : List Char) : Option (Char × List Char) := do
  let (hi, s) ← hexDigits 4 0 s
  if hi < 0xd800 ∨ 0xdfff < hi then pure (Char.ofNat hi, s)
  else if hi < 0xdc00 then
    -- the first half of a character behind the first 2^16
    match s with
    | '\\' :: 'u' :: s => do
      let (lo, s) ← hexDigits 4 0 s
      if 0xdc00 ≤ lo ∧ lo ≤ 0xdfff then
        pure (Char.ofNat (0x10000 + (hi - 0xd800) * 0x400 + (lo - 0xdc00)), s)
      else none
    | _ => none
  else none

/-- The character of an escape of one letter. -/
def simpleEscape (c : Char) : Option Char :=
  if c = '"' ∨ c = '\\' ∨ c = '/' then some c
  else if c = 'b' then some '\x08'
  else if c = 'f' then some '\x0c'
  else if c = 'n' then some '\n'
  else if c = 'r' then some '\r'
  else if c = 't' then some '\t'
  else none

/-- An escape, behind its backslash. -/
def readEscape : List Char → Option (Char × List Char)
  | [] => none
  | c :: s => if c = 'u' then codePoint s else (simpleEscape c).map (·, s)

/-- Digits are taken away. -/
theorem hexDigits_length {n acc m : ℕ} {s r : List Char} (h : hexDigits n acc s = some (m, r)) :
    r.length ≤ s.length := by
  induction n generalizing acc s with
  | zero =>
    cases h
    exact le_rfl
  | succ n ih =>
    cases s with
    | nil => cases h
    | cons c s =>
      obtain ⟨d, -, hd⟩ := Option.bind_eq_some_iff.mp h
      exact (ih hd).trans (Nat.le_succ _)

/-- Reading a code point does not make the text longer. -/
theorem codePoint_length {s r : List Char} {c : Char} (h : codePoint s = some (c, r)) :
    r.length ≤ s.length := by
  unfold codePoint at h
  obtain ⟨⟨hi, s'⟩, hhi, h⟩ := Option.bind_eq_some_iff.mp h
  have hlen := hexDigits_length hhi
  dsimp only at h
  split at h
  · obtain ⟨-, rfl⟩ := Prod.mk.inj (Option.some.inj h)
    exact hlen
  · split at h
    · split at h
      · obtain ⟨⟨lo, s''⟩, hlo, h⟩ := Option.bind_eq_some_iff.mp h
        have hlen' := hexDigits_length hlo
        dsimp only at h
        split at h
        · obtain ⟨-, rfl⟩ := Prod.mk.inj (Option.some.inj h)
          simp only [List.length_cons] at hlen
          omega
        · cases h
      · cases h
    · cases h

/-- An escape is taken away. -/
theorem readEscape_length {s r : List Char} {c : Char} (h : readEscape s = some (c, r)) :
    r.length < s.length := by
  cases s with
  | nil => cases h
  | cons x s =>
    rw [readEscape] at h
    split at h
    · exact Nat.lt_succ_of_le (codePoint_length h)
    · obtain ⟨y, -, hy⟩ := Option.map_eq_some_iff.mp h
      cases hy
      exact Nat.lt_succ_self _

/-- A string behind its opening quote, up to its closing quote. -/
def stringBody : List Char → Option (List Char × List Char)
  | [] => none
  | c :: s =>
    if c = '"' then some ([], s)
    else if c = '\\' then
      match _h : readEscape s with
      | none => none
      | some (x, r) => (stringBody r).map fun (t, r) => (x :: t, r)
    -- a control character has to be escaped
    else if c.toNat < 32 then none
    else (stringBody s).map fun (t, r) => (c :: t, r)
termination_by s => s.length
decreasing_by
  · have := readEscape_length _h
    simp only [List.length_cons]
    omega
  · exact Nat.lt_succ_self _

/-- A string ends at a quote. -/
theorem stringBody_quote (s : List Char) : stringBody ('"' :: s) = some ([], s) := by
  rw [stringBody, if_pos rfl]

/-- A plain character is read as it is. -/
theorem stringBody_plain {c : Char} (hquote : c ≠ '"') (hback : c ≠ '\\') (hc : 32 ≤ c.toNat)
    (s : List Char) : stringBody (c :: s) = (stringBody s).map fun (t, r) => (c :: t, r) := by
  rw [stringBody, if_neg hquote, if_neg hback, if_neg (by omega)]

/-- No control character is read. -/
theorem stringBody_control {c : Char} (hc : c.toNat < 32) (s : List Char) :
    stringBody (c :: s) = none := by
  have hquote : c ≠ '"' := by
    rintro rfl
    exact absurd hc (by decide)
  have hback : c ≠ '\\' := by
    rintro rfl
    exact absurd hc (by decide)
  rw [stringBody, if_neg hquote, if_neg hback, if_pos hc]

/-- An escape is read as its character. -/
theorem stringBody_escape (s : List Char) : stringBody ('\\' :: s) =
    (readEscape s).bind fun (x, r) => (stringBody r).map fun (t, r) => (x :: t, r) := by
  rw [stringBody, if_neg (by decide), if_pos rfl]
  split
  · next h => rw [h]; rfl
  · next x r h => rw [h]; rfl

/-- A backslash and a character with an escape of one letter. -/
theorem stringBody_simpleEscape {c x : Char} (hc : c ≠ 'u') (hx : simpleEscape c = some x)
    (s : List Char) :
    stringBody ('\\' :: c :: s) = (stringBody s).map fun (t, r) => (x :: t, r) := by
  have hread : readEscape (c :: s) = some (x, s) := by
    rw [readEscape, if_neg hc, hx]
    rfl
  rw [stringBody_escape, hread]
  rfl

/-! ## Numbers -/

/-- One digit or more. -/
def digits (s : List Char) : Option (List Char × List Char) :=
  let ds := s.takeWhile Char.isDigit
  if ds = [] then none else some (ds, s.dropWhile Char.isDigit)

/-- The digits in front of the point, with no zero in front. -/
def intPart : List Char → Option (List Char × List Char)
  | '0' :: s => some (['0'], s)
  | s => digits s

/-- The point and the digits behind it. -/
def fracPart : List Char → Option (List Char × List Char)
  | '.' :: s => (digits s).map fun (ds, r) => ('.' :: ds, r)
  | s => some ([], s)

/-- The sign of an exponent. -/
def signPart : List Char → List Char × List Char
  | '+' :: s => (['+'], s)
  | '-' :: s => (['-'], s)
  | s => ([], s)

/-- The exponent. -/
def expPart : List Char → Option (List Char × List Char)
  | [] => some ([], [])
  | c :: s =>
    if c = 'e' ∨ c = 'E' then
      let (sign, s) := signPart s
      (digits s).map fun (ds, r) => (c :: (sign ++ ds), r)
    else some ([], c :: s)

/-- A number without its sign. -/
def unsigned (s : List Char) : Option (List Char × List Char) := do
  let (int, s) ← intPart s
  let (frac, s) ← fracPart s
  let (exp, s) ← expPart s
  pure (int ++ (frac ++ exp), s)

/-- A number. -/
def number : List Char → Option (List Char × List Char)
  | '-' :: s => (unsigned s).map fun (t, r) => ('-' :: t, r)
  | s => unsigned s

/-! ## Values -/

/-- A value. Members keep their order and numbers their text. -/
inductive Value where
  | null
  | bool (b : Bool)
  | num (text : List Char)
  | str (s : List Char)
  | arr (vs : List Value)
  | obj (fields : List (List Char × Value))

/-- White space between tokens. -/
def isSpace (c : Char) : Bool := c = ' ' || c = '\t' || c = '\n' || c = '\r'

/-- The text behind white space. -/
def skipSpace (s : List Char) : List Char := s.dropWhile isSpace

section Items

variable {β : Type} (item : List Char → Option (β × List Char)) (close : Char)

/-- Items with commas between them, up to a closing bracket; at most `n`. -/
def items : ℕ → List Char → Option (List β × List Char)
  | 0, _ => none
  | n + 1, s => (item s).bind fun (v, r) =>
    match skipSpace r with
    | [] => none
    | c :: r =>
      -- behind a comma there has to be another item
      if c = ',' then (items n r).map fun (vs, r) => (v :: vs, r)
      else if c = close then some ([v], r)
      else none

/-- Items behind an opening bracket. -/
def bracketed (s : List Char) : Option (List β × List Char) :=
  match skipSpace s with
  | [] => none
  | c :: r => if c = close then some ([], r) else items item close s.length s

end Items

/-- A member of an object. -/
def readMember (val : List Char → Option (Value × List Char)) (s : List Char) :
    Option ((List Char × Value) × List Char) :=
  match skipSpace s with
  | '"' :: s => (stringBody s).bind fun (k, r) =>
    match skipSpace r with
    | ':' :: r => (val r).map fun (v, r) => ((k, v), r)
    | _ => none
  | _ => none

/-- The rest of a word. -/
def keyword (word : List Char) (v : Value) (s : List Char) : Option (Value × List Char) :=
  if word.isPrefixOf s then some (v, s.drop word.length) else none

/-- A value of at most some depth. -/
def readValue : ℕ → List Char → Option (Value × List Char)
  | 0, _ => none
  | n + 1, s =>
    match skipSpace s with
    | [] => none
    | c :: s =>
      if c = '"' then (stringBody s).map fun (t, r) => (.str t, r)
      else if c = '[' then (bracketed (readValue n) ']' s).map fun (vs, r) => (.arr vs, r)
      else if c = '{' then
        (bracketed (readMember (readValue n)) '}' s).map fun (fields, r) => (.obj fields, r)
      else if c = 'n' then keyword ['u', 'l', 'l'] .null s
      else if c = 't' then keyword ['r', 'u', 'e'] (.bool true) s
      else if c = 'f' then keyword ['a', 'l', 's', 'e'] (.bool false) s
      else (number (c :: s)).map fun (t, r) => (.num t, r)

/-- The value of a text; `none` when it is not well formed. A value is less deep than its text is
long. -/
def parse (s : List Char) : Option Value :=
  (readValue (s.length + 1) s).bind fun (v, r) => if skipSpace r = [] then some v else none

/-! ## Texts with commas between them -/

/-- Texts with a separator between them. -/
def joinText {α : Type} (sep : α) : List (List α) → List α
  | [] => []
  | [t] => t
  | t :: u :: ts => t ++ sep :: joinText sep (u :: ts)

/-- A loop over items that puts the separator in front of each but the first. -/
theorem foldl_zipIdx_join {α ι : Type} (sep : α) (text : ι → List α) (buf : List α)
    (xs : List ι) :
    xs.zipIdx.foldl (fun buf x => (if 0 < x.2 then buf ++ [sep] else buf) ++ text x.1) buf =
      buf ++ joinText sep (xs.map text) := by
  have htail : ∀ (ys : List ι) (k : ℕ) (y : ι) (buf : List α), 0 < k →
      (ys.zipIdx k).foldl (fun buf x => (if 0 < x.2 then buf ++ [sep] else buf) ++ text x.1)
        (buf ++ text y) = buf ++ joinText sep ((y :: ys).map text) := by
    intro ys
    induction ys with
    | nil => intros; rfl
    | cons z ys ih =>
      intro k y buf hk
      rw [List.zipIdx_cons, List.foldl_cons, if_pos hk, ih (k + 1) z _ k.succ_pos]
      simp only [List.map_cons, joinText, List.append_assoc, List.singleton_append]
  cases xs with
  | nil => exact (List.append_nil buf).symm
  | cons x xs =>
    rw [List.zipIdx_cons, List.foldl_cons, if_neg (lt_irrefl 0)]
    exact htail xs 1 x buf Nat.one_pos

/-! ## What a reader makes of a text -/

/-- In front of a rest that meets `follow`, the reader reads the value from the text under the
condition, and only under it. -/
structure Reads {β : Type} (p : List Char → Option (β × List Char)) (follow : List Char → Prop)
    (t : List Char) (v : β) (ok : Prop) : Prop where
  /-- Under the condition the value is read and the rest is left. -/
  reads : ok → ∀ r, follow r → p (t ++ r) = some (v, r)
  /-- When the value is read, the condition holds. -/
  only : ∀ r r', follow r → p (t ++ r) = some (v, r') → ok

/-- Any rest. -/
abbrev anyRest : List Char → Prop := fun _ => True

/-- What is read in front of some texts is read in front of fewer. -/
theorem Reads.mono {β : Type} {p : List Char → Option (β × List Char)} {F G : List Char → Prop}
    {t : List Char} {v : β} {ok : Prop} (h : Reads p F t v ok) (hFG : ∀ r, G r → F r) :
    Reads p G t v ok :=
  ⟨fun hok r hr => h.reads hok r (hFG r hr), fun r r' hr => h.only r r' (hFG r hr)⟩

/-- The condition of reading may be stated otherwise. -/
theorem Reads.congr {β : Type} {p : List Char → Option (β × List Char)} {F : List Char → Prop}
    {t : List Char} {v : β} {ok ok' : Prop} (h : Reads p F t v ok) (hok : ok ↔ ok') :
    Reads p F t v ok' := by
  rwa [← hok]

/-- Where no space is, none is skipped. -/
theorem skipSpace_cons {c : Char} (hc : isSpace c = false) (s : List Char) :
    skipSpace (c :: s) = c :: s := by
  rw [skipSpace, List.dropWhile_cons_of_neg (by simp [hc])]

/-- The result of one reader is put into another's. -/
theorem map_pair_eq_some {β γ : Type} {f : β → γ} (hf : Function.Injective f)
    {x : Option (β × List Char)} {v : β} {r : List Char}
    (h : (x.map fun (v, r) => (f v, r)) = some (f v, r)) : x = some (v, r) := by
  obtain ⟨⟨v', r'⟩, hx, hv⟩ := Option.map_eq_some_iff.mp h
  obtain ⟨hval, rfl⟩ := Prod.mk.inj hv
  rw [hx, hf hval]

section Items

variable {β : Type} {item : List Char → Option (β × List Char)} {close : Char}

/-- The first of some items is read by the reader of items. -/
theorem item_of_items {n : ℕ} {s r' : List Char} {v : β} {vs : List β}
    (h : items item close (n + 1) s = some (v :: vs, r')) : ∃ r, item s = some (v, r) := by
  rw [items, Option.bind_eq_some_iff] at h
  obtain ⟨⟨v', r⟩, hitem, hrest⟩ := h
  dsimp only at hrest
  split at hrest
  · cases hrest
  split at hrest
  · obtain ⟨⟨vs, s'⟩, -, heq⟩ := Option.map_eq_some_iff.mp hrest
    cases heq
    exact ⟨r, hitem⟩
  · split at hrest
    · cases hrest
      exact ⟨r, hitem⟩
    · cases hrest

/-- What a reader of items makes of a text of that many items and the closing bracket. -/
structure ReadsItems (item : List Char → Option (β × List Char)) (close : Char) (t : List Char)
    (vs : List β) (ok : Prop) : Prop where
  /-- There is a character for each of them. -/
  length_le : vs.length ≤ t.length
  /-- They are read by every reader of at least that many. -/
  reads : ∀ n, vs.length ≤ n → Reads (items item close n) anyRest t vs ok

/-- The last item. -/
theorem ReadsItems.last {F : List Char → Prop} {t : List Char} {v : β} {ok : Prop}
    (h : Reads item F t v ok) (hclose : isSpace close = false) (hcomma : close ≠ ',')
    (hF : ∀ r, F (close :: r)) : ReadsItems item close (t ++ [close]) [v] ok where
  length_le := by simp
  reads := by
    intro n hn
    obtain ⟨n, rfl⟩ := Nat.exists_eq_add_of_le' hn
    refine ⟨fun hok r _ => ?_, fun r r' _ hread => ?_⟩
    · rw [List.append_assoc, List.singleton_append, List.length_singleton, items,
        h.reads hok _ (hF r), Option.bind_some]
      simp only [skipSpace_cons hclose, if_neg hcomma, if_true]
    · rw [List.append_assoc, List.singleton_append] at hread
      obtain ⟨s, hitem⟩ := item_of_items hread
      exact h.only _ _ (hF r) hitem

/-- An item in front of others. -/
theorem ReadsItems.cons {F : List Char → Prop} {t ts : List Char} {v : β} {vs : List β}
    {ok oks : Prop} (h : Reads item F t v ok) (hs : ReadsItems item close ts vs oks)
    (hF : ∀ r, F (',' :: (ts ++ r))) :
    ReadsItems item close (t ++ ',' :: ts) (v :: vs) (ok ∧ oks) where
  length_le := by
    have := hs.length_le
    simp only [List.length_cons, List.length_append]
    omega
  reads := by
    intro n hn
    rw [List.length_cons] at hn
    obtain ⟨n, rfl⟩ : ∃ m, n = m + 1 := ⟨n - 1, by omega⟩
    have hn' : vs.length ≤ n := Nat.le_of_succ_le_succ hn
    have hspace : ∀ r, skipSpace (',' :: r) = ',' :: r := skipSpace_cons (by decide)
    refine ⟨fun ⟨hok, hoks⟩ r _ => ?_, fun r r' _ hread => ?_⟩
    · rw [List.append_assoc, List.cons_append, items, h.reads hok _ (hF r), Option.bind_some]
      simp only [hspace, if_true, (hs.reads n hn').reads hoks r trivial, Option.map_some]
    · rw [List.append_assoc, List.cons_append] at hread
      -- The first item is read, so its condition holds, it is read to its end, and the others
      -- come next.
      obtain ⟨s, hitem⟩ := item_of_items hread
      have hok := h.only _ _ (hF r) hitem
      rw [items, h.reads hok _ (hF r), Option.bind_some] at hread
      simp only [hspace, if_true] at hread
      exact ⟨hok, (hs.reads n hn').only r r' trivial (map_pair_eq_some List.cons_injective hread)⟩

/-- Items that may stand before any rest. -/
theorem ReadsItems.join {ι : Type} {text : ι → List Char} {val : ι → β} {ok : ι → Prop}
    {xs : List ι} (hne : xs ≠ []) (h : ∀ x ∈ xs, Reads item anyRest (text x) (val x) (ok x))
    (hclose : isSpace close = false) (hcomma : close ≠ ',') :
    ReadsItems item close (joinText ',' (xs.map text) ++ [close]) (xs.map val)
      (∀ x ∈ xs, ok x) := by
  induction xs with
  | nil => exact absurd rfl hne
  | cons x xs ih =>
    obtain ⟨hx, hxs⟩ := List.forall_mem_cons.mp h
    cases xs with
    | nil =>
      have hlast := ReadsItems.last hx hclose hcomma fun _ => trivial
      simpa only [List.map_cons, List.map_nil, joinText, List.mem_singleton, forall_eq] using hlast
    | cons y ys =>
      have hrest := ReadsItems.cons hx (ih (List.cons_ne_nil y ys) hxs) fun _ => trivial
      simpa only [List.map_cons, joinText, List.append_assoc, List.cons_append,
        List.forall_mem_cons] using hrest

/-- Items behind an opening bracket. -/
theorem ReadsItems.bracketed {c : Char} {ts : List Char} {vs : List β} {ok : Prop}
    (h : ReadsItems item close (c :: ts) vs ok) (hc : isSpace c = false) (hclose : c ≠ close) :
    Reads (bracketed item close) anyRest (c :: ts) vs ok := by
  have hread : ∀ r, Json.bracketed item close (c :: ts ++ r) =
      items item close (c :: ts ++ r).length (c :: ts ++ r) := by
    intro r
    rw [Json.bracketed, List.cons_append, skipSpace_cons hc]
    simp only [if_neg hclose]
  have hlen : ∀ r : List Char, vs.length ≤ (c :: ts ++ r).length := by
    intro r
    rw [List.length_append]
    exact Nat.le_add_right_of_le h.length_le
  refine ⟨fun hok r _ => ?_, fun r r' _ heq => ?_⟩
  · rw [hread, (h.reads _ (hlen r)).reads hok r trivial]
  · rw [hread] at heq
    exact (h.reads _ (hlen r)).only r r' trivial heq

/-- No items. -/
theorem reads_bracketed_nil (hclose : isSpace close = false) :
    Reads (bracketed item close) anyRest [close] [] True := by
  refine ⟨fun _ r _ => ?_, fun _ _ _ _ => trivial⟩
  rw [bracketed, List.singleton_append, skipSpace_cons hclose]
  simp only [if_true]

end Items

section Value

variable {n : ℕ} {F : List Char → Prop} {ok : Prop}

/-- A string. -/
theorem Reads.str {t s : List Char} (h : Reads stringBody F t s ok) :
    Reads (readValue (n + 1)) F ('"' :: t) (.str s) ok := by
  have hread : ∀ r, readValue (n + 1) ('"' :: t ++ r) =
      (stringBody (t ++ r)).map fun (t, r) => (.str t, r) := by
    intro r
    rw [readValue, List.cons_append, skipSpace_cons (by decide)]
    simp only [if_true]
  refine ⟨fun hok r hr => ?_, fun r r' hr heq => ?_⟩
  · rw [hread, h.reads hok r hr]
    rfl
  · rw [hread] at heq
    exact h.only r r' hr (map_pair_eq_some (fun _ _ => Value.str.inj) heq)

/-- An array. -/
theorem Reads.arr {t : List Char} {vs : List Value}
    (h : Reads (bracketed (readValue n) ']') F t vs ok) :
    Reads (readValue (n + 1)) F ('[' :: t) (.arr vs) ok := by
  have hread : ∀ r, readValue (n + 1) ('[' :: t ++ r) =
      (bracketed (readValue n) ']' (t ++ r)).map fun (vs, r) => (.arr vs, r) := by
    intro r
    rw [readValue, List.cons_append, skipSpace_cons (by decide)]
    simp only [if_neg (by decide : '[' ≠ '"'), if_true]
  refine ⟨fun hok r hr => ?_, fun r r' hr heq => ?_⟩
  · rw [hread, h.reads hok r hr]
    rfl
  · rw [hread] at heq
    exact h.only r r' hr (map_pair_eq_some (fun _ _ => Value.arr.inj) heq)

/-- An object. -/
theorem Reads.obj {t : List Char} {fields : List (List Char × Value)}
    (h : Reads (bracketed (readMember (readValue n)) '}') F t fields ok) :
    Reads (readValue (n + 1)) F ('{' :: t) (.obj fields) ok := by
  have hread : ∀ r, readValue (n + 1) ('{' :: t ++ r) =
      (bracketed (readMember (readValue n)) '}' (t ++ r)).map
        fun (fields, r) => (.obj fields, r) := by
    intro r
    rw [readValue, List.cons_append, skipSpace_cons (by decide)]
    simp only [if_neg (by decide : '{' ≠ '"'), if_neg (by decide : '{' ≠ '['), if_true]
  refine ⟨fun hok r hr => ?_, fun r r' hr heq => ?_⟩
  · rw [hread, h.reads hok r hr]
    rfl
  · rw [hread] at heq
    exact h.only r r' hr (map_pair_eq_some (fun _ _ => Value.obj.inj) heq)

/-- `null`. -/
theorem reads_null : Reads (readValue (n + 1)) anyRest ['n', 'u', 'l', 'l'] .null True := by
  refine ⟨fun _ r _ => ?_, fun _ _ _ _ => trivial⟩
  rw [readValue, List.cons_append, skipSpace_cons (by decide)]
  simp [keyword]

/-- Characters that need no escape. -/
def PlainText (k : List Char) : Prop := ∀ c ∈ k, c ≠ '"' ∧ c ≠ '\\' ∧ 32 ≤ c.toNat

/-- A string of characters that need no escape. -/
theorem stringBody_append {s : List Char} (hs : PlainText s) (r : List Char) :
    stringBody (s ++ '"' :: r) = some (s, r) := by
  induction s with
  | nil => exact stringBody_quote r
  | cons c s ih =>
    obtain ⟨⟨hquote, hback, hc⟩, hs⟩ := List.forall_mem_cons.mp hs
    rw [List.cons_append, stringBody_plain hquote hback hc, ih hs]
    rfl

/-- A plain text is read as the body of a string. -/
theorem reads_stringBody {s : List Char} (hs : PlainText s) :
    Reads stringBody anyRest (s ++ ['"']) s True := by
  refine ⟨fun _ r _ => ?_, fun _ _ _ _ => trivial⟩
  rw [List.append_assoc]
  exact stringBody_append hs r

/-- The text of a member whose name is written as it is. -/
def memberText (k t : List Char) : List Char := '"' :: (k ++ '"' :: ':' :: t)

/-- A member. -/
theorem Reads.member {val : List Char → Option (Value × List Char)} {k t : List Char} {v : Value}
    (hk : PlainText k) (h : Reads val F t v ok) :
    Reads (readMember val) F (memberText k t) (k, v) ok := by
  have hread : ∀ r, readMember val (memberText k t ++ r) =
      (val (t ++ r)).map fun (v, r) => ((k, v), r) := by
    intro r
    rw [readMember, memberText, List.cons_append, skipSpace_cons (by decide), List.append_assoc]
    simp only [List.cons_append, stringBody_append hk, Option.bind_some,
      skipSpace_cons (by decide : isSpace ':' = false)]
  refine ⟨fun hok r hr => ?_, fun r r' hr heq => ?_⟩
  · rw [hread, h.reads hok r hr]
    rfl
  · rw [hread] at heq
    exact h.only r r' hr (map_pair_eq_some (fun _ _ h => (Prod.mk.inj h).2) heq)

/-- A text has a value exactly under the condition of its reader. -/
theorem Reads.parse_eq_some_iff {t : List Char} {v : Value}
    (h : Reads (readValue (t.length + 1)) anyRest t v ok) : parse t = some v ↔ ok := by
  constructor
  · intro hparse
    rw [parse, Option.bind_eq_some_iff] at hparse
    obtain ⟨⟨v', r⟩, hread, hend⟩ := hparse
    dsimp only at hend
    split at hend
    · cases hend
      exact h.only [] r trivial (by rwa [List.append_nil])
    · cases hend
  · intro hok
    have hread := h.reads hok [] trivial
    rw [List.append_nil] at hread
    rw [parse, hread]
    rfl

/-- An object has its members as its value exactly under their condition. -/
theorem Reads.parse_obj_iff {t : List Char} {fields : List (List Char × Value)}
    (h : Reads (bracketed (readMember (readValue (t.length + 1))) '}') anyRest t fields ok) :
    parse ('{' :: t) = some (.obj fields) ↔ ok := by
  have hobj : Reads (readValue (('{' :: t).length + 1)) anyRest ('{' :: t) (.obj fields) ok :=
    Reads.obj h
  exact hobj.parse_eq_some_iff

/-- The text of an object with one member, an array of objects of which the texts behind their
opening braces are given. -/
def tableText (k : List Char) (bodies : List (List Char)) : List Char :=
  '{' :: (memberText k ('[' :: (joinText ',' (bodies.map ('{' :: ·)) ++ [']'])) ++ ['}'])

/-- An array of objects is read back exactly when all the objects are. -/
theorem parse_tableText_iff {ι : Type} {k : List Char} (hk : PlainText k) {body : ι → List Char}
    {fields : ι → List (List Char × Value)} {okAt : ι → Prop}
    (h : ∀ n x, Reads (bracketed (readMember (readValue (n + 1))) '}') anyRest (body x) (fields x)
      (okAt x)) (xs : List ι) :
    parse (tableText k (xs.map body)) = some (.obj [(k, .arr (xs.map fun x => .obj (fields x)))]) ↔
      ∀ x ∈ xs, okAt x := by
  have helements : ∀ n, Reads (bracketed (readValue (n + 2)) ']') anyRest
      (joinText ',' ((xs.map body).map ('{' :: ·)) ++ [']'])
      (xs.map fun x => .obj (fields x)) (∀ x ∈ xs, okAt x) := by
    intro n
    rcases xs with _ | ⟨x, xs⟩
    · exact (reads_bracketed_nil (by decide)).congr (by simp)
    · have hitems := ReadsItems.join (List.cons_ne_nil x xs) (fun y _ => (h n y).obj)
        (by decide : isSpace ']' = false) (by decide)
      rw [List.map_map]
      obtain ⟨u, hu⟩ : ∃ u, joinText ',' ((x :: xs).map fun y => '{' :: body y) ++ [']'] =
          '{' :: u := by
        cases xs <;> exact ⟨_, rfl⟩
      rw [hu] at hitems
      exact hu ▸ hitems.bracketed (by decide) (by decide)
  have hmember := fun n => ReadsItems.last ((helements n).arr.member hk)
    (by decide : isSpace '}' = false) (by decide) fun _ => trivial
  refine Reads.parse_obj_iff ?_
  -- the text is long enough for the depth of the elements
  obtain ⟨n, hn⟩ : ∃ n, (memberText k ('[' :: (joinText ',' ((xs.map body).map ('{' :: ·)) ++
      [']'])) ++ ['}']).length + 1 = n + 2 + 1 := by
    refine ⟨_, congrArg (· + 1) (Nat.sub_add_cancel ?_).symm⟩
    simp [memberText]
    omega
  rw [hn]
  exact (hmember n).bracketed (by decide) (by decide)

end Value

/-! ## Digits -/

/-- Hexadecimal digits need no escape. -/
theorem plainText_hexChars (bs : List UInt8) : PlainText (hexChars bs) := by
  have hall : ∀ d < 16, Nat.digitChar d ≠ '"' ∧ Nat.digitChar d ≠ '\\' ∧
      32 ≤ (Nat.digitChar d).toNat := by decide
  intro c hc
  obtain ⟨d, hd, rfl⟩ := mem_hexChars hc
  exact hall d hd

/-- A positive number does not start with a zero. -/
theorem toDigits_head {n : ℕ} (hn : 0 < n) : ∃ c ds, Nat.toDigits 10 n = c :: ds ∧ c ≠ '0' := by
  induction n using Nat.strong_induction_on with
  | _ n ih =>
    rcases Nat.lt_or_ge n 10 with h | h
    · have hdigit : ∀ m < 10, 0 < m → Nat.digitChar m ≠ '0' := by decide
      exact ⟨_, [], Nat.toDigits_of_lt_base h, hdigit n h hn⟩
    · obtain ⟨c, ds, heq, hc⟩ := ih (n / 10) (by omega) (by omega)
      rw [Nat.toDigits_of_base_le (by decide) h, heq]
      exact ⟨c, ds ++ [Nat.digitChar (n % 10)], rfl, hc⟩

/-- Closing punctuation is no part of a number. -/
theorem Closing.not_number {c : Char} (hc : Closing c) :
    c.isDigit = false ∧ c ≠ '.' ∧ c ≠ 'e' ∧ c ≠ 'E' := by
  rcases hc with rfl | rfl | rfl <;> decide

/-- A number ends where its digits do. -/
theorem unsigned_append (int : List Char) {ds r : List Char} {c : Char} (hc : Closing c)
    (hint : intPart (int ++ c :: r) = some (ds, c :: r)) :
    unsigned (int ++ c :: r) = some (ds, c :: r) := by
  obtain ⟨-, hdot, he, hE⟩ := hc.not_number
  have hfrac : fracPart (c :: r) = some ([], c :: r) := by
    rw [fracPart]
    rintro s heq
    exact hdot (List.cons.inj heq).1
  have hexp : expPart (c :: r) = some ([], c :: r) := by
    rw [expPart, if_neg (by simp [he, hE])]
  simp only [unsigned, hint, hfrac, hexp, Option.bind_eq_bind, Option.bind_some, List.append_nil,
    Option.pure_def]

/-- A decimal number is read up to closing punctuation. -/
theorem number_toDigits (n : ℕ) {c : Char} (hc : Closing c) (r : List Char) :
    number (Nat.toDigits 10 n ++ c :: r) = some (Nat.toDigits 10 n, c :: r) := by
  rcases Nat.eq_zero_or_pos n with rfl | hn
  · rw [Nat.toDigits_zero]
    exact unsigned_append ['0'] hc rfl
  obtain ⟨d, ds, heq, hd⟩ := toDigits_head hn
  have hall : ∀ x ∈ Nat.toDigits 10 n, x.isDigit = true :=
    fun x hx => Nat.isDigit_of_mem_toDigits (by decide) (by decide) hx
  have hdigits : digits (Nat.toDigits 10 n ++ c :: r) = some (Nat.toDigits 10 n, c :: r) := by
    have hstop : ¬c.isDigit = true := by simp [hc.not_number.1]
    rw [digits, List.takeWhile_append_of_pos hall, List.takeWhile_cons_of_neg hstop,
      List.append_nil, List.dropWhile_append_of_pos hall, List.dropWhile_cons_of_neg hstop]
    simp [Nat.toDigits_ne_nil]
  -- A digit is no sign, so the reader goes straight to the digits.
  have hminus : d ≠ '-' := by
    rintro rfl
    exact absurd (hall '-' (heq ▸ List.mem_cons_self)) (by decide)
  rw [heq] at hdigits ⊢
  -- Nor is the first digit a zero, which would have to stand alone.
  have hint : intPart (d :: ds ++ c :: r) = some (d :: ds, c :: r) := by
    rw [List.cons_append, intPart]
    · exact hdigits
    · rintro s h
      exact hd (List.cons.inj h).1
  rw [List.cons_append, number]
  · exact unsigned_append _ hc hint
  · rintro s h
    exact hminus (List.cons.inj h).1

/-- A decimal number is a value. -/
theorem reads_num (m n : ℕ) : Reads (readValue (m + 1)) (fun r => ∃ c q, Closing c ∧ r = c :: q)
    (Nat.toDigits 10 n) (.num (Nat.toDigits 10 n)) True := by
  refine ⟨fun _ r hr => ?_, fun _ _ _ _ => trivial⟩
  obtain ⟨c, q, hc, rfl⟩ := hr
  have hnumber := number_toDigits n hc q
  have hne : Nat.toDigits 10 n ≠ [] := Nat.toDigits_ne_nil
  obtain ⟨d, ds, heq⟩ := List.exists_cons_of_ne_nil hne
  have hd : d.isDigit = true :=
    Nat.isDigit_of_mem_toDigits (by decide) (by decide) (heq ▸ List.mem_cons_self)
  rw [heq, List.cons_append] at hnumber ⊢
  -- A digit starts none of the other values.
  have hother : ∀ x : Char, x.isDigit = false → d ≠ x := by
    rintro x hx rfl
    exact Bool.false_ne_true (hx.symm.trans hd)
  have hspace : isSpace d = false := by
    simp [isSpace, hother ' ' (by decide), hother '\t' (by decide), hother '\n' (by decide),
      hother '\r' (by decide)]
  rw [readValue, skipSpace_cons hspace]
  simp only [if_neg (hother '"' (by decide)), if_neg (hother '[' (by decide)),
    if_neg (hother '{' (by decide)), if_neg (hother 'n' (by decide)),
    if_neg (hother 't' (by decide)), if_neg (hother 'f' (by decide)), hnumber, Option.map_some]

/-- A member that is a number, in front of others. -/
theorem ReadsItems.num {m : ℕ} (n : ℕ) {k ts : List Char} {fields : List (List Char × Value)}
    (hk : PlainText k) (h : ReadsItems (readMember (readValue (m + 1))) '}' ts fields True) :
    ReadsItems (readMember (readValue (m + 1))) '}'
      (memberText k (Nat.toDigits 10 n) ++ ',' :: ts)
      ((k, .num (Nat.toDigits 10 n)) :: fields) True := by
  have hitems := ReadsItems.cons ((reads_num m n).member hk) h fun r => ⟨',', _, .inl rfl, rfl⟩
  rwa [true_and] at hitems

/-- Numbers are written differently. -/
theorem toDigits_inj {m n : ℕ} (h : Nat.toDigits 10 m = Nat.toDigits 10 n) : m = n := by
  have hm := Nat.ofDigitChars_ten_toDigits (n := m)
  rwa [h, Nat.ofDigitChars_ten_toDigits, eq_comm] at hm

/-! ## Strings without all their escapes -/

section RawText

variable {b : Bool} {t : List Char}

/-- A string as it is, or with a backslash in front of each quote. -/
def rawText (b : Bool) (s : List Char) : List Char :=
  s.flatMap fun c => if b ∧ c = '"' then ['\\', c] else [c]

/-- A string that its raw text stands for. -/
def Clean (b : Bool) (s : List Char) : Prop :=
  ∀ c ∈ s, c ≠ '\\' ∧ 32 ≤ c.toNat ∧ (c = '"' → b = true)

/-- Characters that need no escape are clean. -/
theorem PlainText.clean {s : List Char} (hs : PlainText s) (b : Bool) : Clean b s :=
  fun c hc => ⟨(hs c hc).2.1, (hs c hc).2.2, fun hquote => absurd hquote (hs c hc).1⟩

/-- Without escapes the text is the string. -/
theorem rawText_false (s : List Char) : rawText false s = s := by
  simp [rawText]

/-- A text is written character by character. -/
theorem rawText_cons (c : Char) (s : List Char) :
    rawText b (c :: s) = (if b ∧ c = '"' then ['\\', c] else [c]) ++ rawText b s :=
  List.flatMap_cons

/-- The front of a raw text is the backslash of a quote or the first character of the string. -/
theorem rawText_eq_cons {s r : List Char} {x : Char} (hx : x ≠ '"')
    (h : rawText b s ++ '"' :: t = x :: r) :
    (x = '\\' ∧ ∃ s', s = '"' :: s' ∧ r = '"' :: (rawText b s' ++ '"' :: t)) ∨
      ∃ s', s = x :: s' ∧ r = rawText b s' ++ '"' :: t := by
  cases s with
  | nil => exact absurd (List.cons.inj h).1.symm hx
  | cons c s =>
    rw [rawText_cons] at h
    split_ifs at h with hc
    · obtain ⟨rfl, rfl⟩ := List.cons.inj h
      exact .inl ⟨rfl, s, by rw [hc.2], by rw [hc.2]; rfl⟩
    · obtain ⟨rfl, rfl⟩ := List.cons.inj h
      exact .inr ⟨s, rfl, rfl⟩

/-- The hexadecimal digits at the front of a raw text are characters of the string. -/
theorem hexDigits_rawText {n acc m : ℕ} {s r : List Char}
    (h : hexDigits n acc (rawText b s ++ '"' :: t) = some (m, r)) :
    ∃ p s', s = p ++ s' ∧ r = rawText b s' ++ '"' :: t := by
  induction n generalizing acc s with
  | zero =>
    cases h
    exact ⟨[], s, rfl, rfl⟩
  | succ n ih =>
    generalize heq : rawText b s ++ '"' :: t = u at h
    cases u with
    | nil => cases h
    | cons x u =>
      obtain ⟨d, hd, hrest⟩ := Option.bind_eq_some_iff.mp h
      -- The closing quote is no hexadecimal digit.
      have hquote : x ≠ '"' := by
        rintro rfl
        cases hd
      -- Nor is a backslash.
      rcases rawText_eq_cons hquote heq with ⟨rfl, -⟩ | ⟨s', rfl, rfl⟩
      · cases hd
      · obtain ⟨p, s'', rfl, rfl⟩ := ih hrest
        exact ⟨x :: p, s'', rfl, rfl⟩

/-- So are the digits of both halves. -/
theorem codePoint_rawText {s r : List Char} {x : Char}
    (h : codePoint (rawText b s ++ '"' :: t) = some (x, r)) :
    ∃ p s', s = p ++ s' ∧ r = rawText b s' ++ '"' :: t := by
  unfold codePoint at h
  obtain ⟨⟨hi, u⟩, hhi, h⟩ := Option.bind_eq_some_iff.mp h
  obtain ⟨p, s', rfl, rfl⟩ := hexDigits_rawText hhi
  dsimp only at h
  split at h
  · obtain ⟨-, rfl⟩ := Prod.mk.inj (Option.some.inj h)
    exact ⟨p, s', rfl, rfl⟩
  · split at h
    · split at h
      · next u heq =>
        obtain ⟨⟨lo, w⟩, hlo, h⟩ := Option.bind_eq_some_iff.mp h
        -- the backslash in front of the other half is no backslash of a quote
        obtain ⟨s'', rfl, hu⟩ : ∃ s'', s' = '\\' :: s'' ∧ 'u' :: u = rawText b s'' ++ '"' :: t := by
          rcases rawText_eq_cons (by decide) heq with ⟨-, s'', -, hu⟩ | hs
          · exact absurd (List.cons.inj hu).1 (by decide)
          · exact hs
        obtain ⟨s₃, rfl, rfl⟩ : ∃ s₃, s'' = 'u' :: s₃ ∧ u = rawText b s₃ ++ '"' :: t := by
          rcases rawText_eq_cons (by decide) hu.symm with ⟨h, -⟩ | hs
          · exact absurd h (by decide)
          · exact hs
        obtain ⟨q, s₄, rfl, rfl⟩ := hexDigits_rawText hlo
        dsimp only at h
        split at h
        · obtain ⟨-, rfl⟩ := Prod.mk.inj (Option.some.inj h)
          exact ⟨p ++ '\\' :: 'u' :: q, s₄, by simp, rfl⟩
        · cases h
      · cases h
    · cases h

/-- Behind a backslash stand the closing quote, the backslash of a quote, or characters of the
string. -/
theorem readEscape_rawText {s r : List Char} {x : Char}
    (h : readEscape (rawText b s ++ '"' :: t) = some (x, r)) :
    (s = [] ∧ x = '"' ∧ r = t) ∨ (∃ s', s = '"' :: s' ∧ r = '"' :: (rawText b s' ++ '"' :: t)) ∨
      ∃ p s', p ≠ [] ∧ s = p ++ s' ∧ r = rawText b s' ++ '"' :: t := by
  generalize heq : rawText b s ++ '"' :: t = u at h
  cases u with
  | nil => cases h
  | cons y u =>
    rw [readEscape] at h
    by_cases hquote : y = '"'
    · subst hquote
      obtain ⟨rfl, rfl⟩ : '"' = x ∧ u = r := by
        simpa [simpleEscape] using h
      -- The quote is the closing one, or one that the writer escaped.
      cases s with
      | nil => exact .inl ⟨rfl, rfl, (List.cons.inj heq).2.symm⟩
      | cons c s =>
        rw [rawText_cons] at heq
        split_ifs at heq with hc
        · exact absurd (List.cons.inj heq).1 (by decide)
        · obtain ⟨rfl, rfl⟩ := List.cons.inj heq
          exact .inr (.inr ⟨['"'], s, List.cons_ne_nil _ _, rfl, rfl⟩)
    · rcases rawText_eq_cons hquote heq with ⟨rfl, s', rfl, rfl⟩ | ⟨s', rfl, rfl⟩
      · obtain ⟨-, rfl⟩ : '\\' = x ∧ '"' :: (rawText b s' ++ '"' :: t) = r := by
          simpa [simpleEscape] using h
        exact .inr (.inl ⟨s', rfl, rfl⟩)
      · split_ifs at h
        · obtain ⟨p, s'', rfl, rfl⟩ := codePoint_rawText h
          exact .inr (.inr ⟨y :: p, s'', List.cons_ne_nil _ _, rfl, rfl⟩)
        · obtain ⟨z, -, hz⟩ := Option.map_eq_some_iff.mp h
          cases hz
          exact .inr (.inr ⟨[y], s', List.cons_ne_nil _ _, rfl, rfl⟩)

/-- What is read for a raw text in front of a comma and a quote is the string, or it is shorter, or
the last backslash took away the closing quote and the next quote ended the string. -/
def RawOutcome (b : Bool) (s d : List Char) : Prop :=
  (Clean b s ∧ d = s) ∨ d.length < s.length ∨ (s.getLast? = some '\\' ∧ d.getLast? = some ',')

/-- A character that is read as itself. -/
theorem RawOutcome.cons {c : Char} {s d : List Char}
    (hc : c ≠ '\\' ∧ 32 ≤ c.toNat ∧ (c = '"' → b = true)) (h : RawOutcome b s d) :
    RawOutcome b (c :: s) (c :: d) := by
  rcases h with ⟨hclean, rfl⟩ | hlt | ⟨hs, hd⟩
  · exact .inl ⟨List.forall_mem_cons.mpr ⟨hc, hclean⟩, rfl⟩
  · exact .inr (.inl (Nat.succ_lt_succ hlt))
  · refine .inr (.inr ⟨?_, ?_⟩)
    · rw [List.getLast?_cons, hs]; rfl
    · rw [List.getLast?_cons, hd]; rfl

/-- A backslash and characters of which one is read. -/
theorem RawOutcome.escape {x : Char} {p s d : List Char} (hp : p ≠ []) (h : RawOutcome b s d) :
    RawOutcome b ('\\' :: (p ++ s)) (x :: d) := by
  have hpos : 0 < p.length := List.length_pos_iff.mpr hp
  rcases h with ⟨-, rfl⟩ | hlt | ⟨hs, hd⟩
  · refine .inr (.inl ?_)
    simp only [List.length_cons, List.length_append]
    omega
  · refine .inr (.inl ?_)
    simp only [List.length_cons, List.length_append]
    omega
  · refine .inr (.inr ⟨?_, ?_⟩)
    · rw [List.getLast?_cons, List.getLast?_append, hs]; rfl
    · rw [List.getLast?_cons, hd]; rfl

/-- What the body of a raw text is read as. -/
theorem stringBody_rawText {s d r : List Char}
    (h : stringBody (rawText b s ++ '"' :: ',' :: '"' :: t) = some (d, r)) :
    RawOutcome b s d := by
  induction hn : s.length using Nat.strong_induction_on generalizing s d with
  | _ n ih =>
  subst hn
  cases s with
  | nil =>
    rw [rawText, List.flatMap_nil, List.nil_append, stringBody_quote] at h
    cases h
    exact .inl ⟨List.forall_mem_nil _, rfl⟩
  | cons c s =>
    -- what is read when `c` is read as itself
    have hkeep : (c ≠ '\\' ∧ 32 ≤ c.toNat ∧ (c = '"' → b = true)) →
        ((stringBody (rawText b s ++ '"' :: ',' :: '"' :: t)).map fun (t, r) => (c :: t, r)) =
          some (d, r) → RawOutcome b (c :: s) d := by
      intro hc h
      obtain ⟨⟨d', r'⟩, hread, heq⟩ := Option.map_eq_some_iff.mp h
      cases heq
      exact (ih s.length (Nat.lt_succ_self _) hread rfl).cons hc
    rw [rawText_cons] at h
    split_ifs at h with hescaped
    · -- a quote with its backslash is read as a quote
      obtain ⟨hb, rfl⟩ := hescaped
      rw [List.append_assoc, List.cons_append, List.singleton_append,
        stringBody_simpleEscape (show '"' ≠ 'u' by decide) rfl] at h
      exact hkeep ⟨by decide, by decide, fun _ => hb⟩ h
    · rw [List.singleton_append, List.cons_append] at h
      rcases Nat.lt_or_ge c.toNat 32 with hcontrol | hc
      · rw [stringBody_control hcontrol] at h
        cases h
      by_cases hquote : c = '"'
      · -- a quote without a backslash is the end
        subst hquote
        rw [stringBody_quote] at h
        cases h
        exact .inr (.inl (Nat.succ_pos _))
      by_cases hback : c = '\\'
      · subst hback
        rw [stringBody_escape] at h
        obtain ⟨⟨x, u⟩, hescape, h⟩ := Option.bind_eq_some_iff.mp h
        obtain ⟨⟨d', r'⟩, hread, heq⟩ := Option.map_eq_some_iff.mp h
        cases heq
        rcases readEscape_rawText hescape with
          ⟨rfl, rfl, rfl⟩ | ⟨s', rfl, rfl⟩ | ⟨p, s', hp, rfl, rfl⟩
        · -- the closing quote was taken, and the string goes on to the quote behind the comma
          rw [stringBody_plain (by decide) (by decide) (by decide), stringBody_quote] at hread
          cases hread
          exact .inr (.inr ⟨rfl, rfl⟩)
        · -- the backslash of a quote was taken, and the quote ends the string
          rw [stringBody_quote] at hread
          cases hread
          exact .inr (.inl (by simp))
        · have hlt : s'.length < ('\\' :: (p ++ s')).length := by
            simp only [List.length_cons, List.length_append]
            omega
          exact (ih s'.length hlt hread rfl).escape hp
      · rw [stringBody_plain hquote hback hc] at h
        exact hkeep ⟨hback, hc, fun h => absurd h hquote⟩ h

/-- A clean string is read from its raw text. -/
theorem stringBody_rawText_of_clean {s : List Char} (hs : Clean b s) (r : List Char) :
    stringBody (rawText b s ++ '"' :: r) = some (s, r) := by
  induction s with
  | nil => exact stringBody_quote r
  | cons c s ih =>
    obtain ⟨⟨hback, hc, hb⟩, hrest⟩ := List.forall_mem_cons.mp hs
    rw [rawText_cons]
    split_ifs with hescaped
    · obtain ⟨-, rfl⟩ := hescaped
      rw [List.append_assoc, List.cons_append, List.singleton_append,
        stringBody_simpleEscape (show '"' ≠ 'u' by decide) rfl]
      exact congrArg _ (ih hrest)
    · have hquote : c ≠ '"' := fun h => hescaped ⟨hb h, h⟩
      rw [List.singleton_append, List.cons_append, stringBody_plain hquote hback hc, ih hrest]
      rfl

/-- In front of a comma and a quote, the string is read from its raw text exactly when it is
clean. -/
theorem reads_rawText (b : Bool) (s : List Char) :
    Reads stringBody (fun r => ∃ q, r = ',' :: '"' :: q) (rawText b s ++ ['"']) s (Clean b s) := by
  refine ⟨fun hs r _ => ?_, ?_⟩
  · rw [List.append_assoc]
    exact stringBody_rawText_of_clean hs r
  · rintro r r' ⟨q, rfl⟩ h
    rw [List.append_assoc] at h
    rcases stringBody_rawText h with ⟨hs, -⟩ | hlt | ⟨hback, hcomma⟩
    · exact hs
    · exact absurd hlt (lt_irrefl _)
    · rw [hback] at hcomma
      exact absurd (Option.some.inj hcomma) (by decide)

/-- The text of an optional string with some of its characters escaped. -/
def optionalText (b : Bool) (s : Option (List Char)) : List Char :=
  match s with
  | some s => '"' :: (rawText b s ++ ['"'])
  | none => ['n', 'u', 'l', 'l']

/-- A string or nothing. -/
def optionalValue (s : Option (List Char)) : Value := s.elim .null .str

/-- An optional string in front of a comma and a quote. -/
theorem reads_optionalText (n : ℕ) (b : Bool) (s : Option (List Char)) :
    Reads (readValue (n + 1)) (fun r => ∃ q, r = ',' :: '"' :: q) (optionalText b s)
      (optionalValue s) (∀ t ∈ s, Clean b t) := by
  cases s with
  | none => exact (reads_null.mono fun _ _ => trivial).congr (by simp)
  | some s => exact (reads_rawText b s).str.congr (by simp)

/-- The value tells an optional text. -/
theorem optionalValue_inj {s s' : Option (List Char)} (h : optionalValue s = optionalValue s') :
    s = s' := by
  cases s <;> cases s' <;> cases h <;> rfl

end RawText

/-! ## Documents -/

/-- What is written for the states of a set is read as their values, and states with different
contents are never written alike. -/
structure Faithful {σ δ γ : Type} (write : σ → δ) (read : δ → Option Value) (value : σ → Value)
    (content : σ → γ) (S : Set σ) : Prop where
  /-- What is written is well formed and has the value. -/
  read_write : ∀ s ∈ S, read (write s) = some (value s)
  /-- What is written names the content. -/
  content_eq : ∀ s ∈ S, ∀ t ∈ S, write s = write t → content s = content t

/-- When the values name the contents, well-formed documents do. -/
theorem faithful_iff {σ δ γ : Type} {write : σ → δ} {read : δ → Option Value} {value : σ → Value}
    {content : σ → γ} {S : Set σ}
    (hvalue : ∀ s ∈ S, ∀ t ∈ S, value s = value t → content s = content t) :
    Faithful write read value content S ↔ ∀ s ∈ S, read (write s) = some (value s) := by
  refine ⟨fun h => h.read_write, fun h => ⟨h, fun s hs t ht heq => hvalue s hs t ht ?_⟩⟩
  have hread := (h s hs).symm.trans ((congrArg read heq).trans (h t ht))
  exact Option.some.inj hread

end Json

end Lib
