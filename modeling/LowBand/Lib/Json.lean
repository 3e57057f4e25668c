import Mathlib.Data.List.Chain
import Mathlib.Data.List.TakeWhile
import Mathlib.Tactic.Common

/-!
# Compact JSON texts

A compact JSON text is a list of tokens written one after the other. A member name comes with its
colon; `object` and `array` put the punctuation around members and elements. Strings are written
between quotes with a backslash before every quote and backslash and a code for every control
character.

Three facts make texts searchable. What stands between the quotes of a string is `Escaped`: plain
characters and pairs of a backslash and a character, so that a quote inside has a backslash before
it (`Escaped.backslash_before_quote`). A string value is followed by a comma or a closing bracket,
never by a colon (`WellFormed`). Hence a quoted name in a text is a member name or the end of a
string value (`eq_of_quoted_isPrefix`, `closing_of_quoted_isPrefix`).
-/

namespace Lib

namespace Json

/-! ## Strings -/

/-- The character as it is written inside a string. -/
def escapeChar (c : Char) : List Char :=
  if c = '"' then ['\\', '"']
  else if c = '\\' then ['\\', '\\']
  else if c = '\x08' then ['\\', 'b']
  else if c = '\x0c' then ['\\', 'f']
  else if c = '\n' then ['\\', 'n']
  else if c = '\r' then ['\\', 'r']
  else if c = '\t' then ['\\', 't']
  else if c.toNat < 32 then
    ['\\', 'u', '0', '0', Nat.digitChar (c.toNat / 16), Nat.digitChar (c.toNat % 16)]
  else [c]

/-- The text of a string between its quotes. -/
def escape (s : List Char) : List Char := s.flatMap escapeChar

/-- A text in quotes. -/
def quoted (e : List Char) : List Char := '"' :: (e ++ ['"'])

/-- Plain characters and pairs of a backslash and a character. -/
inductive Escaped : List Char → Prop
  | nil : Escaped []
  | plain {c : Char} {e : List Char} (hquote : c ≠ '"') (hback : c ≠ '\\') (h : Escaped e) :
    Escaped (c :: e)
  | pair {x : Char} {e : List Char} (h : Escaped e) : Escaped ('\\' :: x :: e)

/-- Plain characters may stand in front. -/
theorem Escaped.plain_append {p e : List Char} (hp : ∀ c ∈ p, c ≠ '"' ∧ c ≠ '\\')
    (h : Escaped e) : Escaped (p ++ e) := by
  induction p with
  | nil => exact h
  | cons c p ih =>
    obtain ⟨hc, hp⟩ := List.forall_mem_cons.mp hp
    exact .plain hc.1 hc.2 (ih hp)

/-- Digits are plain. -/
theorem digitChar_plain {n : ℕ} (h : n < 16) : Nat.digitChar n ≠ '"' ∧ Nat.digitChar n ≠ '\\' := by
  have hall : ∀ n < 16, Nat.digitChar n ≠ '"' ∧ Nat.digitChar n ≠ '\\' := by decide
  exact hall n h

/-- A written character in front of an escaped text. -/
theorem Escaped.escapeChar_append (c : Char) {e : List Char} (h : Escaped e) :
    Escaped (escapeChar c ++ e) := by
  unfold escapeChar
  split_ifs with hquote hback _ _ _ _ _ hcontrol
  iterate 7 exact .pair h
  · -- the code of a control character
    refine .pair (.plain_append (p := ['0', '0', _, _]) ?_ h)
    have hhi := digitChar_plain (show c.toNat / 16 < 16 by omega)
    have hlo := digitChar_plain (Nat.mod_lt c.toNat (show 0 < 16 by decide))
    simp [hhi, hlo]
  · exact .plain hquote hback h

/-- The text of a string is escaped. -/
theorem escaped_escape (s : List Char) : Escaped (escape s) := by
  induction s with
  | nil => exact .nil
  | cons c s ih => exact ih.escapeChar_append c

/-- A quote in an escaped text has a backslash before it. -/
theorem Escaped.backslash_before_quote {e a b : List Char} (h : Escaped e)
    (heq : e = a ++ '"' :: b) : ∃ a', a = a' ++ ['\\'] := by
  induction h generalizing a with
  | nil => simp at heq
  | plain hquote _ _ ih =>
    cases a with
    | nil => exact absurd (List.cons.inj heq).1 hquote
    | cons x a =>
      obtain ⟨a', rfl⟩ := ih (List.cons.inj heq).2
      exact ⟨x :: a', rfl⟩
  | pair h ih =>
    match a, heq with
    | [], heq => exact absurd (List.cons.inj heq).1 (by decide)
    | [x], heq => exact ⟨[], by rw [← (List.cons.inj heq).1]; rfl⟩
    | x :: y :: a, heq =>
      obtain ⟨a', rfl⟩ := ih (List.cons.inj (List.cons.inj heq).2).2
      exact ⟨x :: y :: a', rfl⟩

/-! ## Tokens -/

/-- A token: punctuation, `null`, a string value, or a member name with its colon. -/
inductive Token where
  | punct (c : Char)
  | null
  | str (s : List Char)
  | key (k : List Char)

/-- The text of a token. -/
def Token.text : Token → List Char
  | .punct c => [c]
  | .null => ['n', 'u', 'l', 'l']
  | .str s => quoted (escape s)
  | .key k => quoted (escape k) ++ [':']

/-- The text of a list of tokens. -/
def text (ts : List Token) : List Char := ts.flatMap Token.text

/-- No tokens have no text. -/
@[simp]
theorem text_nil : text [] = [] := rfl

/-- The text of a token comes before that of the rest. -/
@[simp]
theorem text_cons (t : Token) (ts : List Token) : text (t :: ts) = t.text ++ text ts := rfl

/-- The texts of two rows of tokens follow each other. -/
@[simp]
theorem text_append (ts us : List Token) : text (ts ++ us) = text ts ++ text us :=
  List.flatMap_append

/-- Values one after the other, with commas between them. -/
def commaSep : List (List Token) → List Token
  | [] => []
  | [v] => v
  | v :: w :: vs => v ++ .punct ',' :: commaSep (w :: vs)

/-- An array. -/
def array (vs : List (List Token)) : List Token := .punct '[' :: (commaSep vs ++ [.punct ']'])

/-- A member of an object. -/
def member (f : List Char × List Token) : List Token := .key f.1 :: f.2

/-- An object. -/
def object (fields : List (List Char × List Token)) : List Token :=
  .punct '{' :: (commaSep (fields.map member) ++ [.punct '}'])

/-- Punctuation between and behind values. -/
def Closing (c : Char) : Prop := c = ',' ∨ c = ']' ∨ c = '}'

/-- A member name: some letters and underscores. -/
def PlainName (k : List Char) : Prop := k ≠ [] ∧ ∀ c ∈ k, c.isLower ∨ c = '_'

/-- Whether a name is plain can be decided. -/
instance (k : List Char) : Decidable (PlainName k) := inferInstanceAs (Decidable (_ ∧ _))

/-- The tokens that texts are made of. -/
def Token.Ok : Token → Prop
  | .punct c => c = '[' ∨ c = '{' ∨ Closing c
  | .key k => PlainName k
  | .null | .str _ => True

/-- A list of tokens in which every string value is followed by a comma or a closing bracket. -/
def WellFormed : List Token → Prop
  | [] => True
  | t :: ts => t.Ok ∧ ((∃ s, t = .str s) → ∃ c us, Closing c ∧ ts = .punct c :: us) ∧ WellFormed ts

/-- A list of tokens that may stand where a comma or a closing bracket follows. -/
def IsValue (v : List Token) : Prop :=
  ∀ c ts, Closing c → WellFormed (.punct c :: ts) → WellFormed (v ++ .punct c :: ts)

/-- A token other than a string value may stand anywhere. -/
theorem wellFormed_cons {t : Token} {ts : List Token} (hok : t.Ok) (hstr : ∀ s, t ≠ .str s)
    (h : WellFormed ts) : WellFormed (t :: ts) :=
  ⟨hok, fun ⟨s, hs⟩ => absurd hs (hstr s), h⟩

/-- A string is a value. -/
theorem isValue_str (s : List Char) : IsValue [.str s] :=
  fun c ts hc h => ⟨trivial, fun _ => ⟨c, ts, hc, rfl⟩, h⟩

/-- `null` is a value. -/
theorem isValue_null : IsValue [.null] :=
  fun _ _ _ h => wellFormed_cons trivial (fun _ => by simp) h

/-- Values with commas between them, before a closing bracket. -/
theorem wellFormed_commaSep {vs : List (List Token)} (hvs : ∀ v ∈ vs, IsValue v) {c : Char}
    {ts : List Token} (hc : Closing c) (h : WellFormed (.punct c :: ts)) :
    WellFormed (commaSep vs ++ .punct c :: ts) := by
  induction vs using commaSep.induct with
  | case1 => exact h
  | case2 v => exact hvs v List.mem_cons_self c ts hc h
  | case3 v w vs ih =>
    obtain ⟨hv, hvs⟩ := List.forall_mem_cons.mp hvs
    rw [commaSep, List.append_assoc]
    refine hv ',' _ (.inl rfl) (wellFormed_cons (.inr (.inr (.inl rfl))) (fun _ => by simp) ?_)
    exact ih hvs

/-- An array of values. -/
theorem wellFormed_array {vs : List (List Token)} (hvs : ∀ v ∈ vs, IsValue v) {ts : List Token}
    (h : WellFormed ts) : WellFormed (array vs ++ ts) := by
  rw [array, List.cons_append, List.append_assoc]
  have hclose : WellFormed (.punct ']' :: ts) :=
    wellFormed_cons (.inr (.inr (.inr (.inl rfl)))) (fun _ => by simp) h
  exact wellFormed_cons (.inl rfl) (fun _ => by simp)
    (wellFormed_commaSep hvs (.inr (.inl rfl)) hclose)

/-- An object of values under plain names. -/
theorem wellFormed_object {fields : List (List Char × List Token)}
    (hfields : ∀ f ∈ fields, PlainName f.1 ∧ IsValue f.2) {ts : List Token} (h : WellFormed ts) :
    WellFormed (object fields ++ ts) := by
  rw [object, List.cons_append, List.append_assoc]
  have hclose : WellFormed (.punct '}' :: ts) :=
    wellFormed_cons (.inr (.inr (.inr (.inr rfl)))) (fun _ => by simp) h
  have hmembers : ∀ v ∈ fields.map member, IsValue v := by
    intro v hv
    obtain ⟨f, hf, rfl⟩ := List.mem_map.mp hv
    intro c ts hc h
    exact wellFormed_cons (hfields f hf).1 (fun _ => by simp) ((hfields f hf).2 c ts hc h)
  exact wellFormed_cons (.inr (.inl rfl)) (fun _ => by simp)
    (wellFormed_commaSep hmembers (.inr (.inr rfl)) hclose)

/-! ## Quoted names in a text -/

/-- The name in front of the first quote. -/
theorem eq_of_isPrefix_quote {k p y : List Char} (hk : '"' ∉ k) (hp : '"' ∉ p)
    (h : k ++ ['"'] <+: p ++ '"' :: y) : k = p := by
  have htake : ∀ q z : List Char, '"' ∉ q → (q ++ '"' :: z).takeWhile (· ≠ '"') = q := by
    intro q z hq
    rw [List.takeWhile_append_of_pos, List.takeWhile_cons_of_neg (by simp), List.append_nil]
    intro c hc
    exact decide_eq_true (ne_of_mem_of_not_mem hc hq)
  obtain ⟨z, hz⟩ := h
  rw [List.append_assoc] at hz
  rw [← htake k z hk, ← htake p y hp]
  exact congrArg _ hz

/-- A quoted name that starts inside a quoted text, in front of a text that does not go on as the
name does, is the end of the quoted text. -/
theorem eq_of_quoted_isPrefix {e k v rest : List Char} (he : Escaped e) (hk : k ≠ [])
    (hquote : '"' ∉ k) (hback : '\\' ∉ k) (hv : v ≠ []) (hsuffix : v <:+ quoted e)
    (hrest : rest.head? ≠ k.head?) (h : quoted k <+: v ++ rest) : v = quoted k := by
  obtain ⟨c, w, rfl⟩ := List.exists_cons_of_ne_nil hv
  rw [quoted, List.cons_append] at h
  obtain ⟨rfl, hw⟩ := List.cons_prefix_cons.mp h
  -- the rest of the quoted text behind the quote with which the name starts
  have hcases : w = [] ∨ ∃ r, r <:+ e ∧ w = r ++ ['"'] := by
    rcases List.suffix_cons_iff.mp hsuffix with heq | hsuffix
    · exact .inr ⟨e, List.suffix_rfl, (List.cons.inj heq).2⟩
    · rcases List.suffix_concat_iff.mp hsuffix with heq | ⟨r, heq, hr⟩
      · cases heq
      · cases r with
        | nil => exact .inl (List.cons.inj heq).2
        | cons d r =>
          exact .inr ⟨r, (List.suffix_cons d r).trans hr, (List.cons.inj heq).2⟩
  rcases hcases with rfl | ⟨r, ⟨x, hx⟩, rfl⟩
  · -- the closing quote: the name would have to go on behind the text
    obtain ⟨a, k', rfl⟩ := List.exists_cons_of_ne_nil hk
    obtain ⟨z, hz⟩ := hw
    rw [List.nil_append] at hz
    rw [← hz] at hrest
    exact absurd rfl hrest
  · rw [List.append_assoc, List.singleton_append] at hw
    by_cases hr : '"' ∈ r
    · -- a quote inside has a backslash before it, and a name has none
      obtain ⟨p, q, rfl, hp⟩ := List.eq_append_cons_of_mem hr
      rw [List.append_assoc, List.cons_append] at hw
      obtain rfl := eq_of_isPrefix_quote hquote hp hw
      rw [← List.append_assoc] at hx
      obtain ⟨a', ha'⟩ := he.backslash_before_quote hx.symm
      have hmem : '\\' ∈ k := by
        have hlast := congrArg List.getLast? ha'
        rw [List.getLast?_append_of_ne_nil _ hk] at hlast
        exact List.mem_of_getLast? (hlast.trans (by simp))
      exact absurd hmem hback
    · obtain rfl := eq_of_isPrefix_quote hquote hr hw
      rfl

/-- The characters of a name are behind the control characters, quotes and brackets. -/
theorem PlainName.le_toNat {k : List Char} (hk : PlainName k) {c : Char} (hc : c ∈ k) :
    95 ≤ c.toNat ∧ c.toNat ≤ 122 := by
  rcases hk.2 c hc with h | rfl
  · have hrange : (c.val ≥ 'a'.val && c.val ≤ 'z'.val) = true := h
    have hlower : 97 ≤ c.toNat ∧ c.toNat ≤ 122 := by
      simpa [UInt32.le_iff_toNat_le] using hrange
    omega
  · decide

/-- No character before `_` is in a name. -/
theorem PlainName.notMem {k : List Char} (hk : PlainName k) {c : Char} (hc : c.toNat < 95) :
    c ∉ k := by
  intro hmem
  have := (hk.le_toNat hmem).1
  omega

/-- A name is written as it is. -/
theorem PlainName.escape_eq {k : List Char} (hk : PlainName k) : escape k = k := by
  have hchar : ∀ c ∈ k, escapeChar c = [c] := by
    intro c hc
    have hle := (hk.le_toNat hc).1
    have hne : ∀ d : Char, d.toNat < 95 → c ≠ d := fun d hd heq => by
      rw [heq] at hle
      omega
    unfold escapeChar
    rw [if_neg (hne _ (by decide)), if_neg (hne _ (by decide)), if_neg (hne _ (by decide)),
      if_neg (hne _ (by decide)), if_neg (hne _ (by decide)), if_neg (hne _ (by decide)),
      if_neg (hne _ (by decide)), if_neg (by omega)]
  unfold escape
  clear hk
  induction k with
  | nil => rfl
  | cons c k ih =>
    obtain ⟨hc, hk⟩ := List.forall_mem_cons.mp hchar
    rw [List.flatMap_cons, hc, ih hk]
    rfl

/-- No name starts with closing punctuation or a colon. -/
theorem PlainName.head_ne {k : List Char} (hk : PlainName k) {c : Char}
    (hc : Closing c ∨ c = ':') (r : List Char) : (c :: r).head? ≠ k.head? := by
  obtain ⟨a, k', rfl⟩ := List.exists_cons_of_ne_nil hk.1
  intro heq
  obtain rfl : c = a := Option.some.inj heq
  obtain ⟨hlo, hhi⟩ := hk.le_toNat List.mem_cons_self
  rcases hc with (rfl | rfl | rfl) | rfl <;> revert hlo hhi <;> decide

/-- A text with a quoted name in front contains a quote. -/
theorem quote_mem_of_quoted_isPrefix {k v r : List Char} (hv : v ≠ [])
    (h : quoted k <+: v ++ r) : '"' ∈ v := by
  obtain ⟨c, w, rfl⟩ := List.exists_cons_of_ne_nil hv
  rw [quoted, List.cons_append] at h
  rw [(List.cons_prefix_cons.mp h).1]
  exact List.mem_cons_self

/-- A quoted name at the end of a quoted name is that name. -/
theorem PlainName.eq_of_quoted_isSuffix {k k' : List Char} (hk' : PlainName k')
    (h : quoted k <:+ quoted k') : k = k' := by
  rcases List.suffix_cons_iff.mp h with heq | hsuffix
  · exact List.append_left_injective _ (List.cons.inj heq).2
  · exfalso
    rcases List.suffix_concat_iff.mp hsuffix with heq | ⟨r, heq, hr⟩
    · cases heq
    · -- the opening quote would be a character of the longer name
      cases r with
      | nil =>
        have hlen := congrArg List.length heq
        simp [quoted] at hlen
      | cons d r =>
        obtain rfl := (List.cons.inj heq).1
        exact hk'.notMem (by decide) (hr.subset List.mem_cons_self)

/-- In front of the member `k`, a quoted `k` is the end of a string value: it ends before the member
and closing punctuation follows. -/
theorem closing_of_quoted_isPrefix {ts us : List Token} {k u : List Char} (hk : PlainName k)
    (hwf : WellFormed (ts ++ .key k :: us)) (hnot : ∀ k', .key k' ∈ ts → k' ≠ k) (hu : u ≠ [])
    (hsuffix : u <:+ text ts) (h : quoted k <+: u ++ text (.key k :: us)) :
    (quoted k).length ≤ u.length ∧
      ∃ c r, Closing c ∧ (u ++ text (.key k :: us)).drop (quoted k).length = c :: r := by
  have hquote : '"' ∉ k := hk.notMem (by decide)
  have hback : '\\' ∉ k := hk.notMem (by decide)
  induction ts with
  | nil => exact absurd (List.suffix_nil.mp hsuffix) hu
  | cons t ts ih =>
    rw [List.cons_append] at hwf
    obtain ⟨hok, hstr, hwf⟩ := hwf
    have hnot' : ∀ k', .key k' ∈ ts → k' ≠ k := fun k' hk' => hnot k' (List.mem_cons_of_mem _ hk')
    rw [text_cons] at hsuffix
    by_cases hin : u <:+ text ts
    · exact ih hwf hnot' hin
    -- the quoted name starts in the text of the token `t`
    obtain ⟨v, rfl⟩ :=
      (List.suffix_or_suffix_of_suffix hsuffix (List.suffix_append _ _)).resolve_left hin
    have hvt := ((List.suffix_append_inj_of_length_eq rfl).mp hsuffix).1
    have hv : v ≠ [] := by
      rintro rfl
      exact hin List.suffix_rfl
    rw [List.append_assoc, ← text_append] at h ⊢
    have hmem := quote_mem_of_quoted_isPrefix hv h
    cases t with
    | punct c =>
      have hc := List.mem_singleton.mp (hvt.subset hmem)
      subst hc
      rcases hok with hc | hc | hc | hc | hc <;> exact absurd hc (by decide)
    | null => exact absurd (hvt.subset hmem) (by decide)
    | str s =>
      obtain ⟨c, rest, hc, heq⟩ := hstr ⟨s, rfl⟩
      have htext : text (ts ++ .key k :: us) = c :: text rest := by
        rw [heq]
        rfl
      rw [htext] at h ⊢
      obtain rfl := eq_of_quoted_isPrefix (escaped_escape s) hk.1 hquote hback hv hvt
        (hk.head_ne (.inl hc) _) h
      refine ⟨by rw [List.length_append]; omega, c, text rest, hc, List.drop_left⟩
    | key k' =>
      have hk' : PlainName k' := hok
      rw [Token.text, hk'.escape_eq] at hvt
      rcases List.suffix_concat_iff.mp hvt with rfl | ⟨v', rfl, hv'⟩
      · exact absurd rfl hv
      · rw [List.append_assoc] at h
        exfalso
        rcases List.eq_nil_or_concat v' with rfl | hne
        · exact absurd hmem (by decide)
        · have hne : v' ≠ [] := by
            obtain ⟨l, b, rfl⟩ := hne
            simp
          have hescaped : Escaped k' := hk'.escape_eq ▸ escaped_escape k'
          obtain rfl := eq_of_quoted_isPrefix hescaped hk.1 hquote hback hne hv'
            (hk.head_ne (.inr rfl) _) h
          exact hnot k' List.mem_cons_self (hk'.eq_of_quoted_isSuffix hv').symm

end Json

end Lib
