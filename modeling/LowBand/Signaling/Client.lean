import LowBand.Lib.Find
import LowBand.Lib.Json

/-!
# What the signaling client reads out of a response

The client of `client.rs` has no JSON parser. It looks for a member by searching its quoted name as
text, followed by a colon, and it cuts the participants of a room out of an array by counting
braces outside strings. Texts are their characters, and offsets count characters.

The server answers with the compact texts of a standard serializer, members in the order of their
names, and any string in them may come from the other peer. In such a text a quoted name that is no
member ends a string value, so no colon follows it and the search goes on behind it
(`fieldValueStart_eq`). Counting braces skips strings as a whole, whatever stands in them
(`Walk.loop_escaped`), so the pieces are the participants (`walk_participants`). `extraction_exact`
puts this together: every field is read from its own value. What the client makes of a value is
`reread`, which is the value itself unless it has control characters (`reread_eq`).
-/

namespace LowBand.Signaling

open Lib Lib.Json

/-! ## The extractors -/

/-- `char::is_whitespace`. -/
def isWhitespace (c : Char) : Bool :=
  let n := c.toNat
  (9 ≤ n && n ≤ 13) || n == 32 || n == 0x85 || n == 0xa0 || n == 0x1680 ||
    (0x2000 ≤ n && n ≤ 0x200a) || n == 0x2028 || n == 0x2029 || n == 0x202f || n == 0x205f ||
    n == 0x3000

/-- `str::trim_start`. -/
def trimStart (s : List Char) : List Char := s.dropWhile isWhitespace

/-- The character that the client reads for a backslash and a character. -/
def unescapeChar (c : Char) : Char :=
  if c = 'n' then '\n' else if c = 'r' then '\r' else if c = 't' then '\t' else c

/-- The loop of `scan_json_string`, with the offset of the next character and what was read. -/
def scanBody : List Char → ℕ → List Char → Option (List Char × ℕ)
  | [], _, _ => none
  | c :: s, i, out =>
    if c = '"' then some (out, i + 1)
    else if c = '\\' then
      match s with
      | [] => none
      | x :: s => scanBody s (i + 2) (out ++ [unescapeChar x])
    else scanBody s (i + 1) (out ++ [c])

/-- `scan_json_string`: the string at the front of a text, and its length with both quotes. -/
def scanJsonString : List Char → Option (List Char × ℕ)
  | '"' :: s => scanBody s 1 []
  | _ => none

/-- The search of `field_value_start` in the text that is left, for a body of `len` characters. -/
def fieldValueFrom (len : ℕ) (key : List Char) : List Char → Option ℕ
  | [] => none
  | c :: s =>
    match findSub (quoted key) (c :: s) with
    | none => none
    | some rel =>
      match trimStart ((c :: s).drop (rel + (quoted key).length)) with
      | ':' :: colon => some (len - (trimStart colon).length)
      -- on behind the occurrence, which has at least one character
      | _ => fieldValueFrom len key (s.drop (rel + (quoted key).length - 1))
termination_by s => s.length
decreasing_by
  simp only [List.length_drop, List.length_cons]
  omega

/-- `field_value_start`: the offset of the value of the first member with the name. -/
def fieldValueStart (body key : List Char) : Option ℕ := fieldValueFrom body.length key body

/-- `json_string_field`. -/
def jsonStringField (body key : List Char) : Option (List Char) := do
  let start ← fieldValueStart body key
  let rest := body.drop start
  if ['n', 'u', 'l', 'l'] <+: rest then none
  else (scanJsonString rest).map Prod.fst

/-- The loop of `json_string_array_field`, behind the opening bracket. -/
def scanArray : List Char → List (List Char)
  | [] => []
  | c :: s =>
    if c = ' ' ∨ c = '\t' ∨ c = '\n' ∨ c = '\r' ∨ c = ',' then scanArray s
    else if c = ']' then []
    else if c = '"' then
      match scanJsonString (c :: s) with
      | some (v, consumed) => v :: scanArray (s.drop (consumed - 1))
      | none => []
    else []
termination_by s => s.length
decreasing_by
  all_goals
    simp only [List.length_drop, List.length_cons]
    omega

/-- `json_string_array_field`. -/
def jsonStringArrayField (body key : List Char) : List (List Char) :=
  match fieldValueStart body key with
  | none => []
  | some start =>
    match body.drop start with
    | '[' :: s => scanArray s
    | _ => []

/-- `RoomParticipant`. -/
structure RoomParticipant where
  /-- The participant id. -/
  id : List Char
  /-- The static public key in hexadecimal. -/
  pubkey : List Char
  /-- The candidates. -/
  candidates : List (List Char)
deriving DecidableEq

/-- The participant in the text of an object. -/
def parseParticipant (obj : List Char) : RoomParticipant where
  id := (jsonStringField obj "id".toList).getD []
  pubkey := (jsonStringField obj "pubkey".toList).getD []
  candidates := jsonStringArrayField obj "candidates".toList

/-- The variables of the loop of `parse_participants`. -/
structure Walk where
  /-- The depth of braces. -/
  depth : ℤ
  /-- Where the object began that is being walked. -/
  objStart : Option ℕ
  /-- Whether the walk is inside a string. -/
  inStr : Bool
  /-- Whether the last character was an escaping backslash. -/
  escaped : Bool
  /-- The participants so far. -/
  out : List RoomParticipant

/-- The character `c` at the offset `i` of `rest`; `none` leaves the loop. -/
def Walk.step (rest : List Char) (i : ℕ) (c : Char) (w : Walk) : Option Walk :=
  if w.inStr then
    some <|
      if w.escaped then { w with escaped := false }
      else if c = '\\' then { w with escaped := true }
      else if c = '"' then { w with inStr := false }
      else w
  else if c = '"' then some { w with inStr := true }
  else if c = '{' then
    some { w with
      objStart := if w.depth = 0 then some i else w.objStart
      depth := w.depth + 1 }
  else if c = '}' then
    let w := { w with depth := w.depth - 1 }
    if w.depth = 0 then
      match w.objStart with
      | some s =>
        some { w with
          objStart := none
          out := w.out ++ [parseParticipant ((rest.drop s).take (i + 1 - s))] }
      | none => some w
    else some w
  else if c = ']' ∧ w.depth = 0 then none
  else some w

/-- The loop of `parse_participants` over the characters from the offset `i` on. -/
def Walk.loop (rest : List Char) : ℕ → List Char → Walk → List RoomParticipant
  | _, [], w => w.out
  | i, c :: s, w =>
    match w.step rest i c with
    | none => w.out
    | some w => Walk.loop rest (i + 1) s w

/-- `parse_participants`. -/
def parseParticipants (body : List Char) : List RoomParticipant :=
  match fieldValueStart body "participants".toList with
  | none => []
  | some start =>
    let rest := body.drop start
    match rest with
    | '[' :: _ => Walk.loop rest 0 rest ⟨0, none, false, false, []⟩
    | _ => []

/-! ## Members -/

/-- A text that does not start with whitespace stays. -/
theorem trimStart_eq {s : List Char} (h : ∀ c ∈ s.head?, isWhitespace c = false) :
    trimStart s = s := by
  cases s with
  | nil => rfl
  | cons c s => exact List.dropWhile_cons_of_neg (by simp [h c rfl])

/-- Closing punctuation is neither whitespace nor a colon. -/
theorem isWhitespace_of_closing {c : Char} (h : Closing c) :
    isWhitespace c = false ∧ c ≠ ':' := by
  rcases h with rfl | rfl | rfl <;> decide

/-- The search finds the first member, when every earlier occurrence of its quoted name ends before
the member and is followed by closing punctuation. -/
theorem fieldValueFrom_eq {len : ℕ} {key val : List Char}
    (hval : ∀ c ∈ val.head?, isWhitespace c = false) (pre : List Char)
    (hskip : ∀ u, u ≠ [] → u <:+ pre → quoted key <+: u ++ (quoted key ++ ':' :: val) →
      (quoted key).length ≤ u.length ∧ ∃ c r, Closing c ∧
        (u ++ (quoted key ++ ':' :: val)).drop (quoted key).length = c :: r) :
    fieldValueFrom len key (pre ++ (quoted key ++ ':' :: val)) = some (len - val.length) := by
  have hpos : 0 < (quoted key).length := Nat.succ_pos _
  generalize ht : quoted key ++ ':' :: val = t at hskip ⊢
  -- By strong induction on the text before the member.
  induction hn : pre.length using Nat.strong_induction_on generalizing pre with
  | h n ih =>
    subst hn
    obtain ⟨c, s, hcs⟩ : ∃ c s, pre ++ t = c :: s := by
      refine List.exists_cons_of_ne_nil fun hnil => ?_
      rw [← ht] at hnil
      simp at hnil
    have hstands : quoted key <+: (pre ++ t).drop pre.length := by
      rw [List.drop_left, ← ht]
      exact List.prefix_append _ _
    obtain ⟨i, hi, hfind, hat⟩ := exists_findSub hstands
    rw [hcs, fieldValueFrom, ← hcs, hfind]
    simp only
    rcases Nat.lt_or_eq_of_le hi with hlt | rfl
    · -- an occurrence before the member: the search goes on behind it
      have hdrop : (pre ++ t).drop i = pre.drop i ++ t := List.drop_append_of_le_length hi
      rw [hdrop] at hat
      obtain ⟨hle, c', r, hc', hnext⟩ := hskip (pre.drop i) (by simpa using hlt)
        (List.drop_suffix i pre) hat
      rw [List.length_drop] at hle
      have hrest : (pre ++ t).drop (i + (quoted key).length) = c' :: r := by
        rw [← List.drop_drop, hdrop, hnext]
      have hgo : s.drop (i + (quoted key).length - 1) =
          pre.drop (i + (quoted key).length) ++ t := by
        rw [← List.drop_append_of_le_length (by omega), hcs,
          show i + (quoted key).length = (i + (quoted key).length - 1) + 1 by omega,
          List.drop_succ_cons, Nat.add_sub_cancel]
      rw [hrest, trimStart_eq (by simpa using (isWhitespace_of_closing hc').1)]
      split
      · rename_i colon heq
        exact absurd (List.cons.inj heq).1 (isWhitespace_of_closing hc').2
      · rw [hgo]
        refine ih _ ?_ _ (fun u hu hsuffix => ?_) rfl
        · rw [List.length_drop]
          omega
        · exact hskip u hu (hsuffix.trans (List.drop_suffix _ _))
    · -- the member itself
      have hcolon : (pre ++ t).drop (pre.length + (quoted key).length) = ':' :: val := by
        rw [← List.drop_drop, List.drop_left, ← ht, List.drop_left]
      rw [hcolon, trimStart_eq (by simp; decide)]
      simp only
      rw [trimStart_eq hval]

/-- A list of tokens does not start with whitespace. -/
theorem isWhitespace_head_text {ts : List Token} (h : WellFormed ts) :
    ∀ c ∈ (text ts).head?, isWhitespace c = false := by
  intro c hc
  cases ts with
  | nil => cases hc
  | cons t ts =>
    cases t with
    | punct d =>
      obtain rfl := Option.some.inj hc
      rcases h.1 with rfl | rfl | hd
      · decide
      · decide
      · exact (isWhitespace_of_closing hd).1
    | null | str | key =>
      obtain rfl := Option.some.inj hc
      decide

/-- In a text of tokens, `field_value_start` finds the value of the first member with the name:
what stands behind the member's name and colon. -/
theorem fieldValueStart_eq {ts us : List Token} {k : List Char} (hk : PlainName k)
    (hwf : WellFormed (ts ++ .key k :: us)) (hnot : ∀ k', .key k' ∈ ts → k' ≠ k) :
    fieldValueStart (text (ts ++ .key k :: us)) k = some (text (ts ++ [.key k])).length := by
  -- What follows the member is well formed too.
  have hus : WellFormed us := by
    clear hnot
    induction ts with
    | nil => exact hwf.2.2
    | cons t ts ih => exact ih hwf.2.2
  have hmember : text (.key k :: us) = quoted k ++ ':' :: text us := by
    rw [text_cons, Token.text, hk.escape_eq, List.append_assoc]
    rfl
  -- The document around the member.
  have htext : text (ts ++ .key k :: us) = text ts ++ (quoted k ++ ':' :: text us) := by
    rw [text_append, hmember]
  have hlen : (text (ts ++ .key k :: us)).length - (text us).length =
      (text (ts ++ [.key k])).length := by
    simp only [text_append, text_cons, text_nil, List.length_append, List.append_nil]
    omega
  rw [fieldValueStart, htext, fieldValueFrom_eq (isWhitespace_head_text hus), ← htext, hlen]
  intro u hu hsuffix hpre
  rw [← hmember] at hpre ⊢
  exact closing_of_quoted_isPrefix hk hwf hnot hu hsuffix hpre

/-- What stands at the offset is the value. -/
theorem drop_fieldValueStart (ts us : List Token) (k : List Char) :
    (text (ts ++ .key k :: us)).drop (text (ts ++ [.key k])).length = text us := by
  have htext : text (ts ++ .key k :: us) = text (ts ++ [.key k]) ++ text us := by simp
  rw [htext, List.drop_left]

/-! ## Values -/

/-- What the client reads for the text between two quotes. -/
def unescaped : List Char → List Char
  | [] => []
  | ['\\'] => []
  | '\\' :: x :: e => unescapeChar x :: unescaped e
  | c :: e => c :: unescaped e

/-- What the client reads for a string that the server sent. -/
def reread (s : List Char) : List Char := unescaped (escape s)

/-- A plain character in front is read as it is. -/
theorem unescaped_plain {c : Char} {e : List Char} (hc : c ≠ '\\') :
    unescaped (c :: e) = c :: unescaped e := by
  rw [unescaped]
  · rintro rfl
    exact absurd rfl hc
  · rintro x e' rfl
    exact absurd rfl hc

/-- A character that is no control character, a line end or a tab is read as itself. -/
theorem unescaped_escapeChar {c : Char} (hc : 32 ≤ c.toNat ∨ c = '\n' ∨ c = '\r' ∨ c = '\t')
    (e : List Char) : unescaped (escapeChar c ++ e) = c :: unescaped e := by
  unfold escapeChar
  split_ifs with hquote hback hb hf hn hr ht hcontrol
  · rw [hquote]; rfl
  · rw [hback]; rfl
  · rw [hb] at hc
    exact absurd hc (by decide)
  · rw [hf] at hc
    exact absurd hc (by decide)
  · rw [hn]; rfl
  · rw [hr]; rfl
  · rw [ht]; rfl
  · simp only [hn, hr, ht, or_false] at hc
    omega
  · exact unescaped_plain hback

/-- A string without control characters other than line ends and tabs is read as itself. -/
theorem reread_eq {s : List Char}
    (hs : ∀ c ∈ s, 32 ≤ c.toNat ∨ c = '\n' ∨ c = '\r' ∨ c = '\t') : reread s = s := by
  unfold reread
  induction s with
  | nil => rfl
  | cons c s ih =>
    obtain ⟨hc, hs⟩ := List.forall_mem_cons.mp hs
    rw [escape, List.flatMap_cons, unescaped_escapeChar hc]
    exact congrArg _ (ih hs)

/-- One character of a scan. -/
theorem scanBody_cons (c : Char) (s : List Char) (i : ℕ) (out : List Char) :
    scanBody (c :: s) i out =
      if c = '"' then some (out, i + 1)
      else if c = '\\' then
        match s with
        | [] => none
        | x :: s => scanBody s (i + 2) (out ++ [unescapeChar x])
      else scanBody s (i + 1) (out ++ [c]) :=
  scanBody.eq_def (c :: s) i out

/-- A scan ends at the closing quote, whatever stands before it. -/
theorem scanBody_escaped {e : List Char} (he : Escaped e) (rest : List Char) (i : ℕ)
    (out : List Char) :
    scanBody (e ++ '"' :: rest) i out = some (out ++ unescaped e, i + e.length + 1) := by
  induction he generalizing i out with
  | nil => rw [List.nil_append, scanBody_cons, if_pos rfl, unescaped, List.append_nil]; rfl
  | plain hquote hback _ ih =>
    rw [List.cons_append, scanBody_cons, if_neg hquote, if_neg hback, ih, unescaped_plain hback,
      List.append_assoc, List.length_cons]
    simp only [List.singleton_append, Option.some.injEq, Prod.mk.injEq, true_and]
    omega
  | pair _ ih =>
    rw [List.cons_append, scanBody_cons, if_neg (by decide), if_pos rfl]
    simp only [List.cons_append]
    rw [ih, unescaped, List.append_assoc, List.length_cons, List.length_cons]
    simp only [List.singleton_append, Option.some.injEq, Prod.mk.injEq, true_and]
    omega

/-- A string value is scanned as a whole. -/
theorem scanJsonString_str (s : List Char) (rest : List Char) :
    scanJsonString (Token.text (.str s) ++ rest) =
      some (reread s, (Token.text (.str s)).length) := by
  have hscan := scanBody_escaped (escaped_escape s) rest 1 []
  simp only [Token.text, quoted, List.cons_append, List.append_assoc, scanJsonString, hscan, reread,
    List.nil_append, List.length_cons, List.length_append, List.length_nil, Option.some.injEq,
    Prod.mk.injEq, true_and]
  omega

/-- A member with a string is read as the string. -/
theorem jsonStringField_str {ts us : List Token} {k s : List Char} (hk : PlainName k)
    (hwf : WellFormed (ts ++ .key k :: .str s :: us)) (hnot : ∀ k', .key k' ∈ ts → k' ≠ k) :
    jsonStringField (text (ts ++ .key k :: .str s :: us)) k = some (reread s) := by
  have hnull : ¬ ['n', 'u', 'l', 'l'] <+: Token.text (.str s) ++ text us := by
    intro hnull
    exact absurd (List.cons_prefix_cons.mp hnull).1 (by decide)
  rw [jsonStringField, fieldValueStart_eq hk hwf hnot, Option.bind_eq_bind, Option.bind_some,
    drop_fieldValueStart, text_cons]
  simp only [if_neg hnull, scanJsonString_str, Option.map_some]

/-- A member with `null` is read as nothing. -/
theorem jsonStringField_null {ts us : List Token} {k : List Char} (hk : PlainName k)
    (hwf : WellFormed (ts ++ .key k :: .null :: us)) (hnot : ∀ k', .key k' ∈ ts → k' ≠ k) :
    jsonStringField (text (ts ++ .key k :: .null :: us)) k = none := by
  rw [jsonStringField, fieldValueStart_eq hk hwf hnot, Option.bind_eq_bind, Option.bind_some,
    drop_fieldValueStart, text_cons, if_pos]
  exact List.prefix_append _ _

/-- An array of strings. -/
def strings (cs : List (List Char)) : List Token := array (cs.map fun c => [.str c])

/-- The elements of an array of strings are scanned one by one. -/
theorem scanArray_commaSep (cs : List (List Char)) (rest : List Char) :
    scanArray (text (commaSep (cs.map fun c => [.str c])) ++ ']' :: rest) = cs.map reread := by
  have hstr : ∀ (c : List Char) (rest : List Char),
      scanArray (Token.text (.str c) ++ rest) = reread c :: scanArray rest := by
    intro c rest
    have hscan := scanJsonString_str c rest
    obtain ⟨t, ht⟩ : ∃ t, Token.text (.str c) = '"' :: t := ⟨_, rfl⟩
    rw [ht, List.cons_append] at hscan ⊢
    rw [scanArray, if_neg (by decide), if_neg (by decide), if_pos rfl, hscan]
    simp only [List.length_cons, Nat.add_sub_cancel, List.drop_left]
  -- One string after the other, each behind its comma.
  match cs with
  | [] => simp [commaSep, scanArray]
  | [c] =>
    rw [List.map_singleton, commaSep, text_cons, text_nil, List.append_nil, hstr, scanArray,
      if_neg (by decide), if_pos rfl]
    rfl
  | c :: d :: cs =>
    have ih := scanArray_commaSep (d :: cs) rest
    rw [List.map_cons] at ih
    rw [List.map_cons, List.map_cons, commaSep, List.singleton_append, text_cons, text_cons,
      List.append_assoc, hstr, Token.text, List.append_assoc, List.singleton_append, scanArray,
      if_pos (by simp), ih]
    rfl

/-- A member with an array of strings is read as the strings. -/
theorem jsonStringArrayField_strings {ts us : List Token} {k : List Char} {cs : List (List Char)}
    (hk : PlainName k) (hwf : WellFormed (ts ++ .key k :: (strings cs ++ us)))
    (hnot : ∀ k', .key k' ∈ ts → k' ≠ k) :
    jsonStringArrayField (text (ts ++ .key k :: (strings cs ++ us))) k = cs.map reread := by
  have htext : text (strings cs ++ us) =
      '[' :: (text (commaSep (cs.map fun c => [.str c])) ++ ']' :: text us) := by
    simp [strings, array, Token.text]
  rw [jsonStringArrayField, fieldValueStart_eq hk hwf hnot]
  simp only
  rw [drop_fieldValueStart, htext]
  exact scanArray_commaSep cs (text us)

/-! ## Participants -/

namespace Walk

variable {rest : List Char} {w : Walk}

/-- A character that does not leave the loop. -/
theorem loop_cons {i : ℕ} {c : Char} {s : List Char} {w' : Walk} (h : w.step rest i c = some w') :
    loop rest i (c :: s) w = loop rest (i + 1) s w' := by
  rw [loop, h]

/-- A character outside strings that is no quote, brace or closing bracket is passed over. -/
theorem step_other (hstr : w.inStr = false) {i : ℕ} {c : Char} (hquote : c ≠ '"') (hopen : c ≠ '{')
    (hclose : c ≠ '}') (hbracket : c = ']' → w.depth ≠ 0) : w.step rest i c = some w := by
  have hout : ¬ (c = ']' ∧ w.depth = 0) := fun h => hbracket h.1 h.2
  simp [step, hstr, hquote, hopen, hclose, hout]

/-- Inside a string, the walk passes over the text before the closing quote. -/
theorem loop_escaped {e : List Char} (he : Escaped e) (hstr : w.inStr = true)
    (hesc : w.escaped = false) (i : ℕ) (s : List Char) :
    loop rest i (e ++ s) w = loop rest (i + e.length) s w := by
  obtain ⟨depth, objStart, inStr, escaped, out⟩ := w
  obtain rfl : inStr = true := hstr
  obtain rfl : escaped = false := hesc
  induction he generalizing i with
  | nil => rfl
  | plain hquote hback _ ih =>
    rw [List.cons_append, loop_cons (by simp [step, hquote, hback]; rfl), ih, List.length_cons]
    congr 1
    omega
  | pair _ ih =>
    rw [List.cons_append, List.cons_append, loop_cons (by simp [step]; rfl),
      loop_cons (by simp [step]; rfl), ih, List.length_cons, List.length_cons]
    congr 1
    omega

/-- The walk passes over a quoted text as a whole. -/
theorem loop_quoted {e : List Char} (he : Escaped e) (hstr : w.inStr = false)
    (hesc : w.escaped = false) (i : ℕ) (s : List Char) :
    loop rest i (quoted e ++ s) w = loop rest (i + (quoted e).length) s w := by
  have hstart : w.step rest i '"' = some { w with inStr := true } := by simp [step, hstr]
  have hin : ({ w with inStr := true } : Walk).escaped = false := hesc
  have hend : ∀ j, ({ w with inStr := true } : Walk).step rest j '"' = some w := by
    intro j
    obtain ⟨depth, objStart, inStr, escaped, out⟩ := w
    obtain rfl : inStr = false := hstr
    obtain rfl : escaped = false := hesc
    rfl
  rw [quoted, List.cons_append, List.append_assoc, loop_cons hstart, loop_escaped he rfl hin,
    List.singleton_append, loop_cons (hend _), List.length_cons, List.length_append]
  congr 1
  simp only [List.length_singleton]
  omega

/-- Inside an object, the walk passes over tokens other than braces. -/
theorem loop_tokens {ts : List Token} (hok : ∀ t ∈ ts, t.Ok)
    (hbraces : .punct '{' ∉ ts ∧ .punct '}' ∉ ts) (hstr : w.inStr = false)
    (hesc : w.escaped = false) (hdepth : w.depth ≠ 0) (i : ℕ) (s : List Char) :
    loop rest i (text ts ++ s) w = loop rest (i + (text ts).length) s w := by
  -- By induction on the tokens: none of them opens or closes an object.
  induction ts generalizing i with
  | nil => rfl
  | cons t ts ih =>
    obtain ⟨ht, hok⟩ := List.forall_mem_cons.mp hok
    simp only [List.mem_cons, not_or] at hbraces
    obtain ⟨⟨hopen, hopens⟩, ⟨hclose, hcloses⟩⟩ := hbraces
    have htoken : ∀ s, loop rest i (t.text ++ s) w = loop rest (i + t.text.length) s w := by
      intro s
      cases t with
      | punct c =>
        have hopen : c ≠ '{' := fun h => hopen (by rw [h])
        have hclose : c ≠ '}' := fun h => hclose (by rw [h])
        have hquote : c ≠ '"' := by
          rintro rfl
          rcases ht with h | h | h | h | h <;> exact absurd h (by decide)
        exact loop_cons (step_other hstr hquote hopen hclose fun _ => hdepth)
      | null =>
        have hstep : ∀ j c, c ∈ ['n', 'u', 'l'] → w.step rest j c = some w := by
          intro j c hc
          refine step_other hstr ?_ ?_ ?_ fun _ => hdepth <;> rintro rfl <;>
            exact absurd hc (by decide)
        simp only [Token.text, List.cons_append, List.nil_append]
        rw [loop_cons (hstep _ _ (by decide)), loop_cons (hstep _ _ (by decide)),
          loop_cons (hstep _ _ (by decide)), loop_cons (hstep _ _ (by decide))]
        rfl
      | str s => exact loop_quoted (escaped_escape s) hstr hesc i _
      | key k =>
        rw [Token.text, List.append_assoc, loop_quoted (escaped_escape k) hstr hesc,
          List.singleton_append, loop_cons (step_other hstr (by decide) (by decide) (by decide)
            (fun h => absurd h (by decide))), List.length_append]
        rfl
    rw [text_cons, List.append_assoc, htoken, ih hok ⟨hopens, hcloses⟩, List.length_append,
      Nat.add_assoc]

/-- The walk cuts out an object without inner objects. -/
theorem loop_object {inner : List Token} (hok : ∀ t ∈ inner, t.Ok)
    (hbraces : .punct '{' ∉ inner ∧ .punct '}' ∉ inner) (out : List RoomParticipant) {i : ℕ}
    {s : List Char} (hrest : rest.drop i = text (.punct '{' :: (inner ++ [.punct '}'])) ++ s) :
    loop rest i (text (.punct '{' :: (inner ++ [.punct '}'])) ++ s) ⟨0, none, false, false, out⟩ =
      loop rest (i + (text (.punct '{' :: (inner ++ [.punct '}']))).length) s
        ⟨0, none, false, false,
          out ++ [parseParticipant (text (.punct '{' :: (inner ++ [.punct '}'])))]⟩ := by
  have htext : text (.punct '{' :: (inner ++ [.punct '}'])) = '{' :: (text inner ++ ['}']) := by
    simp [Token.text]
  -- What lies between the braces is cut out as the object.
  have hslice : (rest.drop i).take (i + 1 + (text inner).length + 1 - i) =
      text (.punct '{' :: (inner ++ [.punct '}'])) := by
    rw [hrest, htext, show i + 1 + (text inner).length + 1 - i =
      ('{' :: (text inner ++ ['}'])).length by simp; omega]
    exact List.take_left
  have hclose : (⟨1, some i, false, false, out⟩ : Walk).step rest
      (i + 1 + (text inner).length) '}' = some ⟨0, none, false, false,
        out ++ [parseParticipant (text (.punct '{' :: (inner ++ [.punct '}'])))]⟩ := by
    rw [← hslice]
    rfl
  rw [htext] at hclose ⊢
  have hopen : (⟨0, none, false, false, out⟩ : Walk).step rest i '{' =
      some ⟨1, some i, false, false, out⟩ := rfl
  rw [List.cons_append, loop_cons hopen, List.append_assoc,
    loop_tokens hok hbraces rfl rfl (show (1 : ℤ) ≠ 0 by decide), List.singleton_append,
    loop_cons hclose, List.length_cons, List.length_append, List.length_singleton]
  congr 1
  omega

end Walk

/-! ## The responses of the server -/

/-- A string or `null`. -/
def optional : Option (List Char) → List Token
  | some s => [.str s]
  | none => [.null]

/-- The response of `get_join`. -/
def joinBody (code : List Char) (offer : Option (List Char)) (candidates : List (List Char)) :
    List Token :=
  object [("candidates".toList, strings candidates), ("offer".toList, optional offer),
    ("session_code".toList, [.str code])]

/-- The response of `get_answer`. -/
def answerBody (answer : Option (List Char)) : List Token :=
  object [("answer".toList, optional answer)]

/-- A participant in the response of `get_room`. -/
def participantBody (p : RoomParticipant) : List Token :=
  object [("candidates".toList, strings p.candidates), ("id".toList, [.str p.id]),
    ("pubkey".toList, [.str p.pubkey])]

/-- The response of `get_room`. -/
def roomBody (code : List Char) (participants : List RoomParticipant) : List Token :=
  object [("participants".toList, array (participants.map participantBody)),
    ("room_code".toList, [.str code])]

/-- A string or `null` is a value. -/
theorem isValue_optional (s : Option (List Char)) : IsValue (optional s) := by
  cases s with
  | none => exact isValue_null
  | some s => exact isValue_str s

/-- An array of strings is a value. -/
theorem isValue_strings (cs : List (List Char)) : IsValue (strings cs) := by
  intro c ts _ h
  refine wellFormed_array (fun v hv => ?_) h
  obtain ⟨s, -, rfl⟩ := List.mem_map.mp hv
  exact isValue_str s

/-- The names that the server uses. -/
theorem plainName_of_mem {k : List Char}
    (h : k ∈ ["answer".toList, "candidates".toList, "id".toList, "offer".toList,
      "participants".toList, "pubkey".toList, "room_code".toList, "session_code".toList]) :
    PlainName k := by
  have hall : ∀ k ∈ ["answer".toList, "candidates".toList, "id".toList, "offer".toList,
      "participants".toList, "pubkey".toList, "room_code".toList, "session_code".toList],
      PlainName k := by
    simp [PlainName]
  exact hall k h

/-- The tokens of an array of strings. -/
theorem mem_strings {cs : List (List Char)} {t : Token} (h : t ∈ strings cs) :
    t.Ok ∧ t ≠ .punct '{' ∧ t ≠ .punct '}' ∧ ∀ k, t ≠ .key k := by
  -- The parts of the list are strings and commas.
  have hsep : ∀ cs : List (List Char), t ∈ commaSep (cs.map fun c => [Token.str c]) →
      (∃ s, t = .str s) ∨ t = .punct ',' := by
    intro cs
    induction cs with
    | nil => intro h; cases h
    | cons c cs ih =>
      cases cs with
      | nil =>
        intro h
        exact .inl ⟨c, List.mem_singleton.mp h⟩
      | cons d cs =>
        intro h
        rcases List.mem_cons.mp h with h | h
        · exact .inl ⟨c, h⟩
        · rcases List.mem_cons.mp h with h | h
          · exact .inr h
          · exact ih h
  simp only [strings, array, List.mem_cons, List.mem_append, List.not_mem_nil, or_false] at h
  rcases h with rfl | h | rfl
  · simp [Token.Ok]
  · rcases hsep cs h with ⟨s, rfl⟩ | rfl
    · simp [Token.Ok]
    · simp [Token.Ok, Closing]
  · simp [Token.Ok, Closing]

/-- The names in front of the second member, when the first one is an array of strings. -/
theorem key_mem_front {cs : List (List Char)} {k k' : List Char} {ts : List Token}
    (h : .key k' ∈ .punct '{' :: .key k :: (strings cs ++ ts)) : k' = k ∨ .key k' ∈ ts := by
  simp only [List.mem_cons, reduceCtorEq, Token.key.injEq, false_or, List.mem_append] at h
  rcases h with h | h | h
  · exact .inl h
  · exact absurd rfl ((mem_strings h).2.2.2 k')
  · exact .inr h

/-- In a document, `field_value_start` finds the value that the serializer wrote for the member. -/
def FindsMember (doc : List Token) (k : List Char) (v : List Token) : Prop :=
  ∃ ts us, doc = ts ++ .key k :: (v ++ us) ∧
    fieldValueStart (text doc) k = some (text (ts ++ [.key k])).length

/-- The response of `get_join` is well formed. -/
theorem wellFormed_joinBody (code : List Char) (offer : Option (List Char))
    (candidates : List (List Char)) : WellFormed (joinBody code offer candidates) := by
  rw [← List.append_nil (joinBody code offer candidates)]
  refine wellFormed_object ?_ trivial
  simp only [List.forall_mem_cons, List.not_mem_nil, false_imp_iff, implies_true, and_true]
  exact ⟨⟨plainName_of_mem (by simp), isValue_strings _⟩,
    ⟨plainName_of_mem (by simp), isValue_optional _⟩, plainName_of_mem (by simp), isValue_str _⟩

/-- A participant is well formed. -/
theorem wellFormed_participantBody (p : RoomParticipant) {ts : List Token} (h : WellFormed ts) :
    WellFormed (participantBody p ++ ts) := by
  refine wellFormed_object ?_ h
  simp only [List.forall_mem_cons, List.not_mem_nil, false_imp_iff, implies_true, and_true]
  exact ⟨⟨plainName_of_mem (by simp), isValue_strings _⟩,
    ⟨plainName_of_mem (by simp), isValue_str _⟩, plainName_of_mem (by simp), isValue_str _⟩

/-- The response of `get_room` is well formed. -/
theorem wellFormed_roomBody (code : List Char) (participants : List RoomParticipant) :
    WellFormed (roomBody code participants) := by
  have harray : IsValue (array (participants.map participantBody)) := by
    intro c ts _ h
    refine wellFormed_array (fun v hv => ?_) h
    obtain ⟨p, -, rfl⟩ := List.mem_map.mp hv
    exact fun c ts _ h => wellFormed_participantBody p h
  rw [← List.append_nil (roomBody code participants)]
  refine wellFormed_object ?_ trivial
  simp only [List.forall_mem_cons, List.not_mem_nil, false_imp_iff, implies_true, and_true]
  exact ⟨⟨plainName_of_mem (by simp), harray⟩, plainName_of_mem (by simp), isValue_str _⟩

section Member

variable {doc ts us : List Token} {k : List Char} (hk : PlainName k) (hwf : WellFormed doc)
  (hnot : ∀ k', .key k' ∈ ts → k' ≠ k)

include hk hwf hnot

/-- A member with an optional string is found and read as the string. -/
theorem reads_optional {s : Option (List Char)} (hdoc : doc = ts ++ .key k :: (optional s ++ us)) :
    FindsMember doc k (optional s) ∧ jsonStringField (text doc) k = s.map reread := by
  refine ⟨⟨ts, us, hdoc, ?_⟩, ?_⟩
  · rw [hdoc] at hwf ⊢
    exact fieldValueStart_eq hk hwf hnot
  · rw [hdoc] at hwf ⊢
    cases s with
    | none => exact jsonStringField_null hk hwf hnot
    | some s => exact jsonStringField_str hk hwf hnot

/-- A member with an array of strings is found and read as the strings. -/
theorem reads_strings {cs : List (List Char)} (hdoc : doc = ts ++ .key k :: (strings cs ++ us)) :
    FindsMember doc k (strings cs) ∧ jsonStringArrayField (text doc) k = cs.map reread := by
  refine ⟨⟨ts, us, hdoc, ?_⟩, ?_⟩
  · rw [hdoc] at hwf ⊢
    exact fieldValueStart_eq hk hwf hnot
  · rw [hdoc] at hwf ⊢
    exact jsonStringArrayField_strings hk hwf hnot

end Member

/-- The offer and the candidates in a response of `get_join`. -/
theorem joinBody_fields (code : List Char) (offer : Option (List Char))
    (candidates : List (List Char)) :
    FindsMember (joinBody code offer candidates) "offer".toList (optional offer) ∧
      FindsMember (joinBody code offer candidates) "candidates".toList (strings candidates) ∧
      jsonStringField (text (joinBody code offer candidates)) "offer".toList = offer.map reread ∧
      jsonStringArrayField (text (joinBody code offer candidates)) "candidates".toList =
        candidates.map reread := by
  have hwf := wellFormed_joinBody code offer candidates
  -- The document, split at each of the two members.
  have hfirst : joinBody code offer candidates =
      [Token.punct '{'] ++ Token.key "candidates".toList ::
        (strings candidates ++ Token.punct ',' :: .key "offer".toList :: (optional offer ++
          [Token.punct ',', .key "session_code".toList, .str code, .punct '}'])) := by
    simp [joinBody, object, commaSep, member]
  have hsecond : joinBody code offer candidates =
      (Token.punct '{' :: .key "candidates".toList :: (strings candidates ++ [Token.punct ','])) ++
        .key "offer".toList :: (optional offer ++
          [Token.punct ',', .key "session_code".toList, .str code, .punct '}']) := by
    simp [joinBody, object, commaSep, member]
  obtain ⟨hfindsCands, hcands⟩ := reads_strings (plainName_of_mem (by simp)) hwf (by simp) hfirst
  obtain ⟨hfindsOffer, hoffer⟩ := reads_optional (plainName_of_mem (by simp)) hwf
    (fun k' h => by
      rcases key_mem_front h with rfl | h
      · simp
      · simp at h)
    hsecond
  exact ⟨hfindsOffer, hfindsCands, hoffer, hcands⟩

/-- The answer in a response of `get_answer`. -/
theorem answerBody_field (answer : Option (List Char)) :
    FindsMember (answerBody answer) "answer".toList (optional answer) ∧
      jsonStringField (text (answerBody answer)) "answer".toList = answer.map reread := by
  have hanswer : PlainName "answer".toList := plainName_of_mem (by simp)
  have hdoc : answerBody answer = [Token.punct '{'] ++
      Token.key "answer".toList :: (optional answer ++ [Token.punct '}']) := rfl
  have hwf : WellFormed (answerBody answer) := by
    rw [← List.append_nil (answerBody answer)]
    refine wellFormed_object ?_ trivial
    simp only [List.forall_mem_cons, List.not_mem_nil, false_imp_iff, implies_true, and_true]
    exact ⟨hanswer, isValue_optional _⟩
  exact reads_optional hanswer hwf (by simp) hdoc

/-- What the client reads for a participant. -/
def rereadParticipant (p : RoomParticipant) : RoomParticipant :=
  ⟨reread p.id, reread p.pubkey, p.candidates.map reread⟩

/-- The fields of a participant. -/
theorem participantBody_fields (p : RoomParticipant) :
    FindsMember (participantBody p) "id".toList [.str p.id] ∧
      FindsMember (participantBody p) "pubkey".toList [.str p.pubkey] ∧
      FindsMember (participantBody p) "candidates".toList (strings p.candidates) ∧
      parseParticipant (text (participantBody p)) = rereadParticipant p := by
  have hwf : WellFormed (participantBody p) := by
    rw [← List.append_nil (participantBody p)]
    exact wellFormed_participantBody p trivial
  -- The document, split at each of the three members.
  have hfirst : participantBody p = [Token.punct '{'] ++ Token.key "candidates".toList ::
      (strings p.candidates ++ [Token.punct ',', .key "id".toList, .str p.id, .punct ',',
        .key "pubkey".toList, .str p.pubkey, .punct '}']) := by
    simp [participantBody, object, commaSep, member]
  have hsecond : participantBody p =
      (Token.punct '{' :: .key "candidates".toList ::
        (strings p.candidates ++ [Token.punct ','])) ++
        .key "id".toList :: (optional (some p.id) ++ [Token.punct ',', .key "pubkey".toList,
          .str p.pubkey, .punct '}']) := by
    simp [participantBody, object, commaSep, member, optional]
  have hthird : participantBody p =
      (Token.punct '{' :: .key "candidates".toList :: (strings p.candidates ++ [Token.punct ',',
        .key "id".toList, .str p.id, .punct ','])) ++
        .key "pubkey".toList :: (optional (some p.pubkey) ++ [Token.punct '}']) := by
    simp [participantBody, object, commaSep, member, optional]
  obtain ⟨hfindsCands, hcands⟩ := reads_strings (plainName_of_mem (by simp)) hwf (by simp) hfirst
  obtain ⟨hfindsId, hid⟩ := reads_optional (plainName_of_mem (by simp)) hwf
    (fun k' h => by
      rcases key_mem_front h with rfl | h
      · simp
      · simp at h)
    hsecond
  obtain ⟨hfindsKey, hkey⟩ := reads_optional (plainName_of_mem (by simp)) hwf
    (fun k' h => by
      rcases key_mem_front h with rfl | h
      · simp
      · simp only [List.mem_cons, reduceCtorEq, Token.key.injEq, List.not_mem_nil, or_false,
          false_or] at h
        simp [h])
    hthird
  refine ⟨hfindsId, hfindsKey, hfindsCands, ?_⟩
  rw [parseParticipant, hid, hkey, hcands]
  rfl

/-- The walk cuts out a participant. -/
theorem walk_participant {rest : List Char} (p : RoomParticipant) (out : List RoomParticipant)
    {i : ℕ} {s : List Char} (hrest : rest.drop i = text (participantBody p) ++ s) :
    Walk.loop rest i (text (participantBody p) ++ s) ⟨0, none, false, false, out⟩ =
      Walk.loop rest (i + (text (participantBody p)).length) s
        ⟨0, none, false, false, out ++ [parseParticipant (text (participantBody p))]⟩ := by
  have hinner : commaSep ([("candidates".toList, strings p.candidates),
      ("id".toList, [Token.str p.id]), ("pubkey".toList, [Token.str p.pubkey])].map member) =
      .key "candidates".toList :: (strings p.candidates ++ [Token.punct ',', .key "id".toList,
        .str p.id, .punct ',', .key "pubkey".toList, .str p.pubkey]) := rfl
  -- No brace is inside, so the walk stays at its depth.
  have htokens : ∀ t ∈ commaSep ([("candidates".toList, strings p.candidates),
      ("id".toList, [Token.str p.id]), ("pubkey".toList, [Token.str p.pubkey])].map member),
      t.Ok ∧ t ≠ .punct '{' ∧ t ≠ .punct '}' := by
    intro t ht
    rw [hinner] at ht
    rcases List.mem_cons.mp ht with rfl | ht
    · exact ⟨plainName_of_mem (by simp), by simp⟩
    · rcases List.mem_append.mp ht with ht | ht
      · exact ⟨(mem_strings ht).1, (mem_strings ht).2.1, (mem_strings ht).2.2.1⟩
      · simp only [List.mem_cons, List.not_mem_nil, or_false] at ht
        rcases ht with rfl | rfl | rfl | rfl | rfl | rfl
        · exact ⟨.inr (.inr (.inl rfl)), by simp⟩
        · exact ⟨plainName_of_mem (by simp), by simp⟩
        · exact ⟨trivial, by simp⟩
        · exact ⟨.inr (.inr (.inl rfl)), by simp⟩
        · exact ⟨plainName_of_mem (by simp), by simp⟩
        · exact ⟨trivial, by simp⟩
  exact Walk.loop_object (fun t ht => (htokens t ht).1)
    ⟨fun h => (htokens _ h).2.1 rfl, fun h => (htokens _ h).2.2 rfl⟩ out hrest

/-- The walk cuts out the participants of a room in order. -/
theorem walk_participants {rest : List Char} (ps : List RoomParticipant)
    (out : List RoomParticipant) {i : ℕ} {s : List Char}
    (hrest : rest.drop i = text (commaSep (ps.map participantBody)) ++ ']' :: s) :
    Walk.loop rest i (text (commaSep (ps.map participantBody)) ++ ']' :: s)
        ⟨0, none, false, false, out⟩ =
      out ++ ps.map fun p => parseParticipant (text (participantBody p)) := by
  have hend : ∀ (i : ℕ) (out : List RoomParticipant),
      Walk.loop rest i (']' :: s) ⟨0, none, false, false, out⟩ = out := fun _ _ => rfl
  match ps with
  | [] =>
    rw [List.map_nil, commaSep, text_nil, List.nil_append, hend, List.map_nil, List.append_nil]
  | [p] =>
    rw [List.map_singleton, commaSep] at hrest ⊢
    rw [walk_participant p out hrest, hend]
    rfl
  | p :: q :: ps =>
    rw [List.map_cons, List.map_cons, commaSep, ← List.map_cons, text_append, List.append_assoc,
      text_cons, Token.text, List.append_assoc, List.singleton_append] at hrest ⊢
    -- The comma between two participants changes nothing.
    have hcomma : ∀ (j : ℕ) (w : Walk), w.inStr = false → w.step rest j ',' = some w :=
      fun j w hw => Walk.step_other hw (by decide) (by decide) (by decide)
        (fun h => absurd h (by decide))
    have hrest' : rest.drop (i + (text (participantBody p)).length + 1) =
        text (commaSep ((q :: ps).map participantBody)) ++ ']' :: s := by
      rw [Nat.add_assoc, ← List.drop_drop, hrest, ← List.drop_drop, List.drop_left]
      rfl
    rw [walk_participant p out hrest, Walk.loop_cons (hcomma _ _ rfl),
      walk_participants (q :: ps) _ hrest', List.append_assoc]
    rfl

/-- The participants in a response of `get_room`. -/
theorem roomBody_participants (code : List Char) (ps : List RoomParticipant) :
    FindsMember (roomBody code ps) "participants".toList (array (ps.map participantBody)) ∧
      parseParticipants (text (roomBody code ps)) =
        ps.map fun p => parseParticipant (text (participantBody p)) := by
  have hwf := wellFormed_roomBody code ps
  have hname : PlainName "participants".toList := plainName_of_mem (by simp)
  -- The document, split at the list of participants.
  have hdoc : roomBody code ps = [Token.punct '{'] ++ Token.key "participants".toList ::
      (array (ps.map participantBody) ++
        [Token.punct ',', .key "room_code".toList, .str code, .punct '}']) := by
    simp [roomBody, object, commaSep, member]
  have hnot : ∀ k', .key k' ∈ [Token.punct '{'] → k' ≠ "participants".toList := by simp
  rw [hdoc] at hwf
  have hfind := fieldValueStart_eq hname hwf hnot
  refine ⟨⟨_, _, hdoc, ?_⟩, ?_⟩
  · rw [hdoc]
    exact hfind
  · have htext : text (array (ps.map participantBody) ++
        [Token.punct ',', .key "room_code".toList, .str code, .punct '}']) =
        '[' :: (text (commaSep (ps.map participantBody)) ++
          ']' :: text [Token.punct ',', .key "room_code".toList, .str code, .punct '}']) := by
      simp [array, Token.text]
    have hopen : ∀ (rest : List Char) (w : Walk), w.inStr = false → w.step rest 0 '[' = some w :=
      fun rest w hw => Walk.step_other hw (by decide) (by decide) (by decide)
        (fun h => absurd h (by decide))
    rw [hdoc, parseParticipants, hfind]
    simp only
    rw [drop_fieldValueStart, htext]
    simp only
    rw [Walk.loop_cons (hopen _ _ rfl), walk_participants ps [] rfl, List.nil_append]

/-- Whatever strings the server's responses contain, the client reads every field from its own
value: the search finds the members themselves, and the participants of a room are cut out in
order. -/
theorem extraction_exact :
    (∀ (code : List Char) (offer : Option (List Char)) (candidates : List (List Char)),
      FindsMember (joinBody code offer candidates) "offer".toList (optional offer) ∧
        FindsMember (joinBody code offer candidates) "candidates".toList (strings candidates) ∧
        jsonStringField (text (joinBody code offer candidates)) "offer".toList =
          offer.map reread ∧
        jsonStringArrayField (text (joinBody code offer candidates)) "candidates".toList =
          candidates.map reread) ∧
      (∀ answer : Option (List Char),
        FindsMember (answerBody answer) "answer".toList (optional answer) ∧
          jsonStringField (text (answerBody answer)) "answer".toList = answer.map reread) ∧
      (∀ (code : List Char) (ps : List RoomParticipant),
        FindsMember (roomBody code ps) "participants".toList (array (ps.map participantBody)) ∧
          parseParticipants (text (roomBody code ps)) =
            ps.map fun p => parseParticipant (text (participantBody p))) ∧
      ∀ p : RoomParticipant,
        FindsMember (participantBody p) "id".toList [.str p.id] ∧
          FindsMember (participantBody p) "pubkey".toList [.str p.pubkey] ∧
          FindsMember (participantBody p) "candidates".toList (strings p.candidates) ∧
          parseParticipant (text (participantBody p)) = rereadParticipant p :=
  ⟨joinBody_fields, answerBody_field, roomBody_participants, participantBody_fields⟩

end LowBand.Signaling
