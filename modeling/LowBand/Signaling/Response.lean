import LowBand.Lib.Loop
import LowBand.Lib.Text
import LowBand.Signaling.Client
import Mathlib.Data.List.Infix

/-!
# Reading a response

`parse_response` of `client.rs` takes a whole HTTP/1.1 response apart: the header block up to the
first empty line, the status in it, and the body, which may be chunked. A slice that is out of range
is a failure of its own in the model; there is none (`parseResponse_inRange`), and each pass of the
loop over the chunks uses up a size line (`dechunkLoop`).

A header block is read back from its text (`HeaderBlock.parseResponse_eq`). In a chunked body the
size of a chunk is what stands before the `;` of its size line, and `chunkSize` trims the line
before it looks for the `;`, not the part that it cuts off. So blanks between the size and an
extension are taken for digits, and an extension has to be UTF-8 although it is ignored
(`SizeLine.chunkSize_bytes`). Otherwise each pass takes exactly one chunk (`dechunkLoop_run`).
`ChunkedResponse.decoded_iff_plain` puts this together.
-/

namespace LowBand.Signaling

open Lib

/-! ## The parser -/

/-- How reading a response fails. -/
inductive ResponseFailure
  /-- `ClientError::Malformed`. -/
  | malformed (what : String)
  /-- A slice is out of range. -/
  | outOfRange
  deriving DecidableEq, Repr

/-- `ok_or(ClientError::Malformed(what))?`. -/
def orMalformed {α : Type} (o : Option α) (what : String) : Except ResponseFailure α :=
  match o with
  | some a => .ok a
  | none => .error (.malformed what)

/-- `&buf[..i]`. -/
def sliceTo (buf : List UInt8) (i : ℕ) : Except ResponseFailure (List UInt8) :=
  if i ≤ buf.length then .ok (buf.take i) else .error .outOfRange

/-- `&buf[i..]`. -/
def sliceFrom (buf : List UInt8) (i : ℕ) : Except ResponseFailure (List UInt8) :=
  if i ≤ buf.length then .ok (buf.drop i) else .error .outOfRange

/-- `b"\r\n"`. -/
def crlf : List UInt8 := [13, 10]

/-- `find_header_end`. -/
def findHeaderEnd (raw : List UInt8) : Option ℕ := findSub (crlf ++ crlf) raw

/-- Whether a header line, in lower case, is one that `header_is_chunked` looks for. -/
def lineIsChunked (l : List Char) : Bool :=
  "transfer-encoding:".toList <+: l ∧ "chunked".toList <:+: l

/-- `header_is_chunked`. -/
def headerIsChunked (head : List Char) : Bool :=
  (lines head).any fun l => lineIsChunked (l.map Char.toLower)

/-- The size in a size line of `dechunk`. -/
def chunkSize (line : List UInt8) : Except ResponseFailure ℕ := do
  let text ← orMalformed (fromUtf8 line) "chunk size utf8"
  let sizeStr := trim isWhitespace text.toList
  let sizeHex := sizeStr.takeWhile (· ≠ ';')
  orMalformed (fromStrRadix 16 (2 ^ 64) sizeHex) "chunk size hex"

/-- The variables of `dechunk`. -/
structure Dechunk where
  /-- What is left of the body. -/
  body : List UInt8
  /-- The data so far. -/
  out : List UInt8
  deriving DecidableEq

/-- One pass of the loop of `dechunk`: the next one, or the data when it is left. -/
def Dechunk.pass (d : Dechunk) : Except ResponseFailure (Dechunk ⊕ List UInt8) := do
  let lineEnd ← orMalformed (findSub crlf d.body) "chunk size line"
  let line ← sliceTo d.body lineEnd
  let size ← chunkSize line
  let body ← sliceFrom d.body (lineEnd + 2)
  if size = 0 then .ok (.inr d.out)
  else if body.length < size then .error (.malformed "truncated chunk")
  else do
    let data ← sliceTo body size
    let body ← sliceFrom body size
    -- the line end behind the data
    let body ← (if crlf <+: body then sliceFrom body 2 else .ok body)
    .ok (.inl ⟨body, d.out ++ data⟩)

/-- The body behind the data of a chunk. -/
def skipLineEnd (body : List UInt8) : List UInt8 := if crlf <+: body then body.drop 2 else body

/-- What a pass makes of a body that begins with a size line. -/
theorem Dechunk.pass_eq {line rest : List UInt8}
    (h : findSub crlf (line ++ (crlf ++ rest)) = some line.length) (out : List UInt8) :
    pass ⟨line ++ (crlf ++ rest), out⟩ = chunkSize line >>= fun size =>
      if size = 0 then .ok (.inr out)
      else if rest.length < size then .error (.malformed "truncated chunk")
      else .ok (.inl ⟨skipLineEnd (rest.drop size), out ++ rest.take size⟩) := by
  -- The line is there up to its end, and the rest behind the end.
  have hline : sliceTo (line ++ (crlf ++ rest)) line.length = .ok line := by
    rw [sliceTo, if_pos (by simp), List.take_left]
  have hrest : sliceFrom (line ++ (crlf ++ rest)) (line.length + 2) = .ok rest := by
    rw [sliceFrom, if_pos (by simp [crlf]), ← List.drop_drop, List.drop_left]
    rfl
  rw [pass]
  simp only [h, orMalformed, ok_bind, hline, hrest]
  congr 1
  funext size
  split_ifs with hzero hshort
  · rfl
  · rfl
  · have hle : size ≤ rest.length := Nat.le_of_not_lt hshort
    rw [sliceTo, if_pos hle, sliceFrom, if_pos hle, ok_bind, ok_bind]
    -- A line end behind the data is skipped if it is there.
    by_cases hcrlf : crlf <+: rest.drop size
    · have htwo : 2 ≤ (rest.drop size).length := hcrlf.length_le
      rw [if_pos hcrlf, sliceFrom, if_pos htwo, ok_bind, skipLineEnd, if_pos hcrlf]
    · rw [if_neg hcrlf, ok_bind, skipLineEnd, if_neg hcrlf]

/-- Skipping a line end does not make the body longer. -/
theorem length_skipLineEnd_le (body : List UInt8) : (skipLineEnd body).length ≤ body.length := by
  unfold skipLineEnd
  split
  · exact (List.drop_sublist 2 body).length_le
  · exact le_refl _

/-- A pass that goes on leaves a shorter body. -/
theorem Dechunk.length_lt_of_pass {d d' : Dechunk} (h : d.pass = .ok (.inl d')) :
    d'.body.length < d.body.length := by
  obtain ⟨body, out⟩ := d
  cases hfind : findSub crlf body with
  | none =>
    rw [pass, hfind] at h
    cases h
  | some i =>
    obtain ⟨line, rest, rfl, rfl⟩ := exists_append_of_findSub hfind (by decide)
    rw [pass_eq hfind] at h
    obtain ⟨size, -, h⟩ := bind_eq_ok.mp h
    split_ifs at h with hzero hshort
    · cases h
    · obtain rfl := Sum.inl.inj (Except.ok.inj h)
      -- The line end at least has been taken away.
      calc (skipLineEnd (rest.drop size)).length
          ≤ (rest.drop size).length := length_skipLineEnd_le _
        _ ≤ rest.length := (List.drop_sublist size rest).length_le
        _ < (line ++ (crlf ++ rest)).length := by
          simp only [List.length_append, crlf, List.length_cons]
          omega

/-- The loop of `dechunk`. -/
def dechunkLoop : Loop Dechunk (Except ResponseFailure (List UInt8)) ℕ where
  body d :=
    match d.pass with
    | .error e => .inr (.error e)
    | .ok (.inl d) => .inl d
    | .ok (.inr out) => .inr (.ok out)
  measure d := d.body.length
  decreases d d' h := by
    split at h
    · cases h
    · next hpass =>
      obtain rfl := Sum.inl.inj h
      exact Dechunk.length_lt_of_pass hpass
    · cases h

/-- `dechunk`. -/
def dechunk (body : List UInt8) : Except ResponseFailure String := do
  let out ← dechunkLoop.run ⟨body, []⟩
  orMalformed (fromUtf8 out) "non-utf8 body"

/-- `parse_response`. -/
def parseResponse (raw : List UInt8) : Except ResponseFailure (ℕ × String) := do
  let split ← orMalformed (findHeaderEnd raw) "no header terminator"
  let head ← sliceTo raw split
  let head ← orMalformed (fromUtf8 head) "non-utf8 headers"
  let body ← sliceFrom raw (split + 4)
  let statusLine ← orMalformed (lines head.toList).head? "no status line"
  let code ← orMalformed
    ((splitWhitespace isWhitespace statusLine)[1]?.bind (fromStrRadix 10 (2 ^ 16)))
    "no status code"
  let body ← (if headerIsChunked head.toList then dechunk body
    else orMalformed (fromUtf8 body) "non-utf8 body")
  .ok (code, body)

/-! ## No slice is out of range -/

/-- The computation does not slice out of range. -/
def InRange {α : Type} (x : Except ResponseFailure α) : Prop := x ≠ .error .outOfRange

/-- A result is no index out of range. -/
theorem inRange_ok {α : Type} (a : α) : InRange (.ok a) := nofun

/-- A malformed response is none. -/
theorem inRange_malformed {α : Type} (what : String) :
    @InRange α (.error (.malformed what)) := nofun

/-- A value that may be missing is none. -/
theorem inRange_orMalformed {α : Type} (o : Option α) (what : String) :
    InRange (orMalformed o what) := by
  cases o with
  | none => exact inRange_malformed what
  | some a => exact inRange_ok a

/-- Two steps in range are in range. -/
theorem inRange_bind {α β : Type} {x : Except ResponseFailure α}
    {f : α → Except ResponseFailure β} (hx : InRange x) (hf : ∀ a, x = .ok a → InRange (f a)) :
    InRange (x >>= f) := by
  cases x with
  | error e => exact fun h => hx (congrArg Except.error (Except.error.inj h))
  | ok a => exact hf a rfl

/-- A slice to a place within the buffer is in range. -/
theorem inRange_sliceTo {buf : List UInt8} {i : ℕ} (h : i ≤ buf.length) :
    InRange (sliceTo buf i) := by
  rw [sliceTo, if_pos h]
  exact inRange_ok _

/-- So is one from it. -/
theorem inRange_sliceFrom {buf : List UInt8} {i : ℕ} (h : i ≤ buf.length) :
    InRange (sliceFrom buf i) := by
  rw [sliceFrom, if_pos h]
  exact inRange_ok _

/-- Reading a size is in range. -/
theorem inRange_chunkSize (line : List UInt8) : InRange (chunkSize line) :=
  inRange_bind (inRange_orMalformed _ _) fun _ _ => inRange_orMalformed _ _

/-- So is every pass of the loop. -/
theorem Dechunk.inRange_pass (d : Dechunk) : InRange d.pass := by
  obtain ⟨body, out⟩ := d
  cases hfind : findSub crlf body with
  | none =>
    rw [pass, hfind]
    exact inRange_malformed _
  | some i =>
    obtain ⟨line, rest, rfl, rfl⟩ := exists_append_of_findSub hfind (by decide)
    rw [pass_eq hfind]
    refine inRange_bind (inRange_chunkSize line) fun size _ => ?_
    split_ifs with hzero hshort
    · exact inRange_ok _
    · exact inRange_malformed _
    · exact inRange_ok _

/-- So is the whole loop. -/
theorem inRange_dechunk (body : List UInt8) : InRange (dechunk body) := by
  refine inRange_bind ?_ fun _ _ => inRange_orMalformed _ _
  refine @Loop.run_induction _ _ _ _ _ (fun _ => True) InRange _ trivial
    (fun _ _ _ _ _ => trivial) ?_
  intro d r _ _ hr
  have hpass := d.inRange_pass
  simp only [dechunkLoop] at hr
  split at hr
  · next e he =>
    obtain rfl := Sum.inr.inj hr
    rw [he] at hpass
    exact fun h => hpass (congrArg Except.error (Except.error.inj h))
  · cases hr
  · obtain rfl := Sum.inr.inj hr
    exact inRange_ok _

/-- `parse_response` never slices out of range, whatever it is given. -/
theorem parseResponse_inRange (raw : List UInt8) : InRange (parseResponse raw) := by
  refine inRange_bind (inRange_orMalformed _ _) fun split hsplit => ?_
  -- the slice behind the headers begins behind the four bytes that were found
  have hfour : split + 4 ≤ raw.length := by
    cases hfind : findHeaderEnd raw with
    | none =>
      rw [hfind] at hsplit
      cases hsplit
    | some i =>
      rw [hfind] at hsplit
      obtain rfl := Except.ok.inj hsplit
      obtain ⟨head, body, rfl, rfl⟩ := exists_append_of_findSub hfind (by decide)
      simp only [List.length_append, crlf, List.length_cons, List.length_nil]
      omega
  refine inRange_bind (inRange_sliceTo (by omega)) fun _ _ => ?_
  refine inRange_bind (inRange_orMalformed _ _) fun head _ => ?_
  refine inRange_bind (inRange_sliceFrom hfour) fun _ _ => ?_
  refine inRange_bind (inRange_orMalformed _ _) fun _ _ => ?_
  refine inRange_bind (inRange_orMalformed _ _) fun _ _ => ?_
  refine inRange_bind ?_ fun _ _ => inRange_ok _
  split
  · exact inRange_dechunk _
  · exact inRange_orMalformed _ _

/-! ## Header blocks -/

/-- A header field. -/
structure Field where
  /-- The name. -/
  name : List Char
  /-- What stands behind the colon. -/
  value : List Char
  name_plain : ∀ c ∈ name, c ≠ '\r' ∧ c ≠ '\n' ∧ c ≠ ':'
  value_plain : ∀ c ∈ value, c ≠ '\r' ∧ c ≠ '\n'

/-- The line of a field. -/
def Field.text (f : Field) : List Char := f.name ++ ':' :: f.value

/-- The field says that the body is chunked. -/
def Field.Chunked (f : Field) : Prop :=
  f.name.map Char.toLower = "transfer-encoding".toList ∧
    "chunked".toList <:+: f.value.map Char.toLower

/-- A status line. -/
structure StatusLine where
  /-- The version of HTTP. -/
  version : List Char
  /-- The status. -/
  status : ℕ
  /-- Its numeral. -/
  code : Numeral 10 status
  /-- What stands behind the status: nothing, or a space and a reason. -/
  reason : List Char
  version_plain : ∀ c ∈ version, isWhitespace c = false
  status_lt : status < 2 ^ 16
  reason_head : ∀ c ∈ reason.head?, c = ' '
  reason_plain : ∀ c ∈ reason, c ≠ '\r' ∧ c ≠ '\n'

/-- The name of the protocol in a status line. -/
def protocolName : List Char := ['H', 'T', 'T', 'P', '/']

/-- The text of a status line. -/
def StatusLine.text (l : StatusLine) : List Char :=
  (protocolName ++ l.version) ++ ' ' :: (l.code.digits ++ l.reason)

/-- A header block. -/
structure HeaderBlock where
  /-- Its first line. -/
  statusLine : StatusLine
  /-- The other lines. -/
  fields : List Field

namespace HeaderBlock

/-- The lines of a header block, without the empty line at its end. -/
def text (h : HeaderBlock) : List Char :=
  h.statusLine.text ++ (h.fields.map Field.text).flatMap fun l => '\r' :: '\n' :: l

/-- A header block as bytes. -/
def bytes (h : HeaderBlock) : List UInt8 := strBytes (String.ofList h.text) ++ (crlf ++ crlf)

/-- The header block says that the body is chunked. -/
def Chunked (h : HeaderBlock) : Prop := ∃ f ∈ h.fields, f.Chunked

end HeaderBlock

/-- Digits are no whitespace, no line ends and no `;`. -/
theorem plain_of_charDigit {radix : ℕ} {c : Char} (h : charDigit radix c ≠ none) :
    isWhitespace c = false ∧ c ≠ '\r' ∧ c ≠ '\n' ∧ c ≠ ';' := by
  have hrange := toNat_of_charDigit h
  refine ⟨?_, ?_, ?_, ?_⟩
  · simp only [isWhitespace, Bool.or_eq_false_iff, Bool.and_eq_false_iff, decide_eq_false_iff_not,
      beq_eq_false_iff_ne]
    omega
  · rintro rfl
    revert hrange
    decide
  · rintro rfl
    revert hrange
    decide
  · rintro rfl
    revert hrange
    decide

/-- What is no whitespace is no line end. -/
theorem ne_lineEnd_of_not_isWhitespace {c : Char} (h : isWhitespace c = false) :
    c ≠ '\r' ∧ c ≠ '\n' := by
  constructor
  · rintro rfl
    exact absurd h (by decide)
  · rintro rfl
    exact absurd h (by decide)

/-- The name of the protocol has no whitespace. -/
theorem protocolName_plain : ∀ c ∈ protocolName, isWhitespace c = false :=
  forall_mem_of_all (by decide)

/-- A status line is not empty. -/
theorem StatusLine.text_ne_nil (l : StatusLine) : l.text ≠ [] := by simp [text]

/-- A status line has no line end. -/
theorem StatusLine.text_plain (l : StatusLine) : ∀ c ∈ l.text, c ≠ '\r' ∧ c ≠ '\n' := by
  intro c hc
  simp only [text, List.mem_append, List.mem_cons] at hc
  rcases hc with (hname | hversion) | rfl | hdigit | hreason
  · exact ne_lineEnd_of_not_isWhitespace (protocolName_plain c hname)
  · exact ne_lineEnd_of_not_isWhitespace (l.version_plain c hversion)
  · decide
  · obtain ⟨-, hcr, hlf, -⟩ := plain_of_charDigit (l.code.charDigit_ne_none hdigit)
    exact ⟨hcr, hlf⟩
  · exact l.reason_plain c hreason

/-- Nor is a field. -/
theorem Field.text_ne_nil (f : Field) : f.text ≠ [] := by simp [text]

/-- The line of a field has no line end. -/
theorem Field.text_plain (f : Field) : ∀ c ∈ f.text, c ≠ '\r' ∧ c ≠ '\n' := by
  intro c hc
  simp only [text, List.mem_append, List.mem_cons] at hc
  rcases hc with hname | rfl | hvalue
  · obtain ⟨hcr, hlf, -⟩ := f.name_plain c hname
    exact ⟨hcr, hlf⟩
  · decide
  · exact f.value_plain c hvalue

/-- The lines of a header block are read back. -/
theorem HeaderBlock.lines_text (h : HeaderBlock) :
    lines h.text = h.statusLine.text :: h.fields.map Field.text := by
  refine lines_joined ?_ ?_
  · intro l hl
    rcases List.mem_cons.mp hl with rfl | hl
    · exact h.statusLine.text_ne_nil
    · obtain ⟨f, -, rfl⟩ := List.mem_map.mp hl
      exact f.text_ne_nil
  · intro l hl hlf
    rcases List.mem_cons.mp hl with rfl | hl
    · exact (h.statusLine.text_plain _ hlf).2 rfl
    · obtain ⟨f, -, rfl⟩ := List.mem_map.mp hl
      exact (f.text_plain _ hlf).2 rfl

/-- The status is read back. -/
theorem StatusLine.read_status (l : StatusLine) :
    (splitWhitespace isWhitespace l.text)[1]?.bind (fromStrRadix 10 (2 ^ 16)) = some l.status := by
  have hversion : ∀ c ∈ protocolName ++ l.version, isWhitespace c = false := fun c hc =>
    (List.mem_append.mp hc).elim (protocolName_plain c) (l.version_plain c)
  have hcode : ∀ c ∈ l.code.digits, isWhitespace c = false := fun c hc =>
    (plain_of_charDigit (l.code.charDigit_ne_none hc)).1
  have hreason : ∀ c ∈ l.reason.head?, isWhitespace c = true := by
    intro c hc
    rw [l.reason_head c hc]
    decide
  have hfirst : protocolName ++ l.version ≠ [] := List.cons_ne_nil _ _
  rw [text, splitWhitespace_second hfirst l.code.ne_nil hversion hcode (by decide) hreason,
    Option.bind_some]
  exact l.code.fromStrRadix_digits (by decide) l.status_lt

/-- A colon is the lower case of a colon only. -/
theorem toLower_eq_colon {c : Char} (h : c.toLower = ':') : c = ':' := by
  unfold Char.toLower at h
  split at h
  · next hup =>
    have hval := congrArg Char.val h
    have hlow : 65 ≤ c.val.toNat := UInt32.le_iff_toNat_le.mp hup.1
    have hhigh : c.val.toNat ≤ 90 := UInt32.le_iff_toNat_le.mp hup.2
    have hsum : (c.val + 32).toNat = 58 := congrArg UInt32.toNat hval
    rw [UInt32.toNat_add, show (32 : UInt32).toNat = 32 from rfl] at hsum
    omega
  · exact h

/-- The client takes a field for chunked exactly when it is. -/
theorem Field.lineIsChunked_iff (f : Field) :
    lineIsChunked (f.text.map Char.toLower) = true ↔ f.Chunked := by
  have hcolon : ':' ∉ f.name.map Char.toLower := by
    intro hmem
    obtain ⟨c, hc, hlower⟩ := List.mem_map.mp hmem
    exact (f.name_plain c hc).2.2 (toLower_eq_colon hlower)
  have htext : f.text.map Char.toLower =
      f.name.map Char.toLower ++ ':' :: f.value.map Char.toLower := by
    rw [text, List.map_append, List.map_cons]
    rfl
  have hname : "transfer-encoding:".toList <+:
      f.name.map Char.toLower ++ ':' :: f.value.map Char.toLower ↔
      f.name.map Char.toLower = "transfer-encoding".toList :=
    append_singleton_isPrefix_iff (l := "transfer-encoding".toList) (by decide) hcolon
  rw [lineIsChunked, Field.Chunked, htext, decide_eq_true_iff, hname]
  refine and_congr_right fun hname => ?_
  -- the coding does not begin in the name, whose only `c` is followed by an `o`
  have hhere : ¬ "chunked".toList <+: "coding:".toList ++ f.value.map Char.toLower := fun hpre =>
    absurd (List.cons_prefix_cons.mp (List.cons_prefix_cons.mp hpre).2).1 (by decide)
  calc "chunked".toList <:+: f.name.map Char.toLower ++ ':' :: f.value.map Char.toLower
      ↔ "chunked".toList <:+:
          "transfer-en".toList ++ ("coding:".toList ++ f.value.map Char.toLower) := by
        rw [hname]
        rfl
    _ ↔ "chunked".toList <:+: "coding:".toList ++ f.value.map Char.toLower :=
        cons_isInfix_append_iff (by decide) _
    _ ↔ "chunked".toList <:+: "oding:".toList ++ f.value.map Char.toLower :=
        List.infix_cons_iff.trans (or_iff_right hhere)
    _ ↔ "chunked".toList <:+: f.value.map Char.toLower := cons_isInfix_append_iff (by decide) _

/-- The client takes a body for chunked exactly when a field says so. -/
theorem HeaderBlock.headerIsChunked_iff (h : HeaderBlock) :
    headerIsChunked h.text = true ↔ h.Chunked := by
  have hstatus : lineIsChunked (h.statusLine.text.map Char.toLower) = false := by
    -- a status line begins with the name of the protocol
    have hlower : h.statusLine.text.map Char.toLower =
        'h' :: h.statusLine.text.tail.map Char.toLower := rfl
    rw [lineIsChunked, hlower, decide_eq_false_iff_not]
    exact fun hpre => absurd (List.cons_prefix_cons.mp hpre.1).1 (by decide)
  rw [headerIsChunked, h.lines_text, List.any_cons, hstatus, Bool.false_or, List.any_map,
    List.any_eq_true]
  exact exists_congr fun f => and_congr_right fun _ => f.lineIsChunked_iff

/-- The line end in front of a line that is not empty is no part of an empty line. -/
theorem findHeaderEnd_crlf {b : UInt8} (hb : 13 ≠ b) (tail : List UInt8) :
    findHeaderEnd (crlf ++ (b :: tail)) = (findHeaderEnd (b :: tail)).map (2 + ·) := by
  have hhere : ¬ crlf ++ crlf <+: crlf ++ (b :: tail) := fun hpre =>
    hb (List.cons_prefix_cons.mp ((List.prefix_append_right_inj crlf).mp hpre)).1
  have hmid : ¬ crlf ++ crlf <+: 10 :: b :: tail := fun hpre =>
    absurd (List.cons_prefix_cons.mp hpre).1 (by decide)
  calc findHeaderEnd (crlf ++ (b :: tail))
      = (findSub (crlf ++ crlf) (10 :: b :: tail)).map (· + 1) := findSub_of_not_isPrefix hhere
    _ = ((findHeaderEnd (b :: tail)).map (· + 1)).map (· + 1) := by
        rw [findSub_of_not_isPrefix hmid, findHeaderEnd]
    _ = (findHeaderEnd (b :: tail)).map (2 + ·) := by
        rw [Option.map_map]
        exact congrArg (Option.map · _) (funext fun i => Nat.add_comm i 2)

/-- A line without line end is passed over. -/
theorem findHeaderEnd_append {line : List UInt8} (h : 13 ∉ line) (rest : List UInt8) :
    findHeaderEnd (line ++ rest) = (findHeaderEnd rest).map (line.length + ·) :=
  findSub_append_of_notMem h rest

/-- The empty line behind lines that are not empty is found. -/
theorem findHeaderEnd_lines {first : List UInt8} {rest : List (List UInt8)} (hfirst : 13 ∉ first)
    (hne : ∀ l ∈ rest, l ≠ []) (hcr : ∀ l ∈ rest, 13 ∉ l) (body : List UInt8) :
    findHeaderEnd (first ++ (rest.flatMap (crlf ++ ·) ++ (crlf ++ (crlf ++ body)))) =
      some (first ++ rest.flatMap (crlf ++ ·)).length := by
  -- By induction on the lines: no line is empty, so no blank line comes before the end.
  induction rest generalizing first with
  | nil =>
    have hend : findHeaderEnd (crlf ++ (crlf ++ body)) = some 0 :=
      findSub_of_isPrefix (List.prefix_append (crlf ++ crlf) body)
    rw [findHeaderEnd_append hfirst, List.flatMap_nil, List.nil_append, List.append_nil, hend]
    rfl
  | cons l rest ih =>
    have hl : 13 ∉ l := hcr l List.mem_cons_self
    have hnext := ih hl (fun m hm => hne m (List.mem_cons_of_mem _ hm))
      (fun m hm => hcr m (List.mem_cons_of_mem _ hm))
    obtain ⟨b, l', rfl⟩ := List.exists_cons_of_ne_nil (hne l List.mem_cons_self)
    have hb : (13 : UInt8) ≠ b := fun heq => hl (heq ▸ List.mem_cons_self)
    rw [findHeaderEnd_append hfirst, List.flatMap_cons, List.append_assoc, List.append_assoc,
      List.cons_append, findHeaderEnd_crlf hb, ← List.cons_append, hnext]
    simp only [Option.map_some, List.length_append, crlf, List.length_cons, List.length_nil,
      Option.some.injEq]
    omega

/-- The empty line at the end of a header block is the first one. -/
theorem HeaderBlock.findHeaderEnd_bytes (h : HeaderBlock) (body : List UInt8) :
    findHeaderEnd (h.bytes ++ body) = some (strBytes (String.ofList h.text)).length := by
  have hbytes : ∀ rest : List (List Char),
      (rest.flatMap fun l => '\r' :: '\n' :: l).flatMap String.utf8EncodeChar =
        (rest.map fun l => strBytes (String.ofList l)).flatMap (crlf ++ ·) := by
    intro rest
    rw [List.flatMap_assoc, List.flatMap_map]
    refine congrArg (List.flatMap · rest) (funext fun l => ?_)
    rw [strBytes_ofList]
    rfl
  have htext : strBytes (String.ofList h.text) = strBytes (String.ofList h.statusLine.text) ++
      ((h.fields.map Field.text).map fun l => strBytes (String.ofList l)).flatMap (crlf ++ ·) := by
    rw [text, strBytes_ofList, List.flatMap_append, hbytes, strBytes_ofList]
  -- No byte of a line is a carriage return, for its characters are none.
  have hcr : ∀ l : List Char, (∀ c ∈ l, c ≠ '\r' ∧ c ≠ '\n') → 13 ∉ strBytes (String.ofList l) := by
    intro l hl hmem
    obtain ⟨c, hc, hval⟩ := mem_strBytes_of_lt (by decide) hmem
    exact (hl c hc).1 (Char.toNat_inj.mp hval)
  rw [bytes, htext, List.append_assoc, List.append_assoc, List.append_assoc,
    findHeaderEnd_lines (hcr _ h.statusLine.text_plain)]
  · intro l hl
    simp only [List.map_map, List.mem_map, Function.comp_apply] at hl
    obtain ⟨f, -, rfl⟩ := hl
    exact strBytes_ne_nil f.text_ne_nil
  · intro l hl
    simp only [List.map_map, List.mem_map, Function.comp_apply] at hl
    obtain ⟨f, -, rfl⟩ := hl
    exact hcr _ f.text_plain

/-- Behind a header block, the response is its status and the body. -/
theorem HeaderBlock.parseResponse_eq (h : HeaderBlock) (body : List UInt8) :
    parseResponse (h.bytes ++ body) =
      (if headerIsChunked h.text then dechunk body
        else orMalformed (fromUtf8 body) "non-utf8 body") >>= fun text =>
          .ok (h.statusLine.status, text) := by
  -- The bytes are cut at the blank line into head and body.
  have hraw : h.bytes ++ body = strBytes (String.ofList h.text) ++ (crlf ++ (crlf ++ body)) := by
    rw [bytes, List.append_assoc, List.append_assoc]
  have hhead : sliceTo (h.bytes ++ body) (strBytes (String.ofList h.text)).length =
      .ok (strBytes (String.ofList h.text)) := by
    rw [hraw, sliceTo, if_pos (by simp), List.take_left]
  have hbody : sliceFrom (h.bytes ++ body) ((strBytes (String.ofList h.text)).length + 4) =
      .ok body := by
    rw [hraw, sliceFrom, if_pos (by simp [crlf]), ← List.drop_drop, List.drop_left]
    rfl
  have hutf8 : fromUtf8 (strBytes (String.ofList h.text)) = some (String.ofList h.text) :=
    fromUtf8_eq_some.mpr rfl
  have hfirst : (lines h.text).head? = some h.statusLine.text := by
    rw [h.lines_text]
    rfl
  rw [parseResponse, h.findHeaderEnd_bytes]
  simp only [orMalformed, ok_bind, hhead, hutf8, hbody, String.toList_ofList, hfirst,
    h.statusLine.read_status]

/-! ## Chunked bodies -/

/-- A size line with the size `n`. -/
structure SizeLine (n : ℕ) where
  /-- The numeral of the size. -/
  numeral : Numeral 16 n
  /-- The blanks behind it. -/
  blanks : List Char
  /-- The extensions, from the first `;` on. -/
  ext : List UInt8
  blanks_eq : ∀ c ∈ blanks, c = ' ' ∨ c = '\t'
  ext_head : ∀ b ∈ ext.head?, b = 59
  ext_line : ¬ crlf <:+: ext

namespace SizeLine

variable {n : ℕ} (l : SizeLine n)

/-- The bytes of a size line. -/
def bytes : List UInt8 := strBytes (String.ofList (l.numeral.digits ++ l.blanks)) ++ l.ext

/-- The size line has no extension, or one that is UTF-8 and follows the size without blanks. -/
def Plain : Prop := l.ext = [] ∨ l.blanks = [] ∧ ∃ t, fromUtf8 l.ext = some t

/-- The line end behind a size line is found. -/
theorem findSub_bytes (rest : List UInt8) :
    findSub crlf (l.bytes ++ (crlf ++ rest)) = some l.bytes.length := by
  have hcr : (13 : UInt8) ∉ strBytes (String.ofList (l.numeral.digits ++ l.blanks)) := by
    intro hmem
    obtain ⟨c, hc, hval⟩ := mem_strBytes_of_lt (by decide) hmem
    obtain rfl : c = '\r' := Char.toNat_inj.mp hval
    rcases List.mem_append.mp hc with hdigit | hblank
    · exact (plain_of_charDigit (l.numeral.charDigit_ne_none hdigit)).2.1 rfl
    · exact absurd (l.blanks_eq _ hblank) (by decide)
  rw [bytes, List.append_assoc, crlf, findSub_append_of_notMem hcr]
  have hext : findSub [13, 10] (l.ext ++ 13 :: 10 :: rest) = some l.ext.length :=
    findSub_append_pair (by decide) l.ext_line rest
  rw [List.cons_append, List.cons_append, List.nil_append, hext, Option.map_some,
    List.length_append]

/-- What is cut off a size line in front of the `;` still has the blanks, unless the line ends with
them. -/
theorem sizeHex_eq {t : List Char} (ht : ∀ c ∈ t.head?, c = ';') :
    (trim isWhitespace (l.numeral.digits ++ l.blanks ++ t)).takeWhile (· ≠ ';') =
      if t = [] then l.numeral.digits else l.numeral.digits ++ l.blanks := by
  have hdigits : ∀ c ∈ l.numeral.digits, isWhitespace c = false ∧ c ≠ ';' := by
    intro c hc
    obtain ⟨hws, -, -, hsemi⟩ := plain_of_charDigit (l.numeral.charDigit_ne_none hc)
    exact ⟨hws, hsemi⟩
  have hblanks : ∀ c ∈ l.blanks, isWhitespace c = true ∧ c ≠ ';' := by
    intro c hc
    rcases l.blanks_eq c hc with rfl | rfl
    · decide
    · decide
  -- Without an extension the blanks are trimmed, with one they stand before the semicolon.
  cases t with
  | nil =>
    rw [if_pos rfl, List.append_nil, trim_append_blanks l.numeral.ne_nil
      (fun c hc => (hdigits c hc).1) (fun c hc => (hblanks c hc).1), List.takeWhile_eq_self_iff]
    intro c hc
    simpa using (hdigits c hc).2
  | cons c e =>
    obtain rfl := ht c rfl
    have htrim : trim isWhitespace (l.numeral.digits ++ l.blanks ++ ';' :: e) =
        l.numeral.digits ++ l.blanks ++ ';' :: e.rdropWhile isWhitespace := by
      rw [trim, List.append_assoc, dropWhile_of_head l.numeral.ne_nil
        (fun c hc => (hdigits c (List.mem_of_mem_head? hc)).1), ← List.append_assoc,
        rdropWhile_append_cons (by decide)]
    have hsize : ∀ c ∈ l.numeral.digits ++ l.blanks, decide (c ≠ ';') = true := by
      intro c hc
      rcases List.mem_append.mp hc with hdigit | hblank
      · simpa using (hdigits c hdigit).2
      · simpa using (hblanks c hblank).2
    rw [htrim, if_neg (List.cons_ne_nil _ _), List.takeWhile_append_of_pos hsize,
      List.takeWhile_cons_of_neg (by decide), List.append_nil]

/-- The text of the extensions begins with a `;`. -/
theorem head_ext {t : String} (ht : l.ext = strBytes t) : ∀ c ∈ t.toList.head?, c = ';' := by
  intro c hc
  obtain ⟨e, he⟩ : ∃ e, t.toList = c :: e := by
    cases htl : t.toList with
    | nil =>
      rw [htl] at hc
      cases hc
    | cons d e =>
      rw [htl] at hc
      exact ⟨e, congrArg (· :: e) (Option.some.inj hc)⟩
  rw [← String.ofList_toList (s := t), he, strBytes_ofList, List.flatMap_cons] at ht
  obtain ⟨b, bs, hb⟩ := List.exists_cons_of_ne_nil (String.utf8EncodeChar_ne_nil (c := c))
  have hsemi : b = 59 := l.ext_head b (by rw [ht, hb]; rfl)
  have hval : c.toNat = b.toNat :=
    mem_utf8EncodeChar_of_lt (by rw [hsemi]; decide) (hb ▸ List.mem_cons_self)
  rw [hsemi] at hval
  exact Char.toNat_inj.mp hval

/-- The size of a size line is read when the line is plain, and otherwise nothing is. -/
theorem chunkSize_bytes (hn : n < 2 ^ 64) (m : ℕ) :
    chunkSize l.bytes = .ok m ↔ l.Plain ∧ m = n := by
  have hline : fromUtf8 l.bytes = (fromUtf8 l.ext).map
      fun t => String.ofList (l.numeral.digits ++ l.blanks ++ t.toList) := fromUtf8_append _ _
  have hnumeral : fromStrRadix 16 (2 ^ 64) l.numeral.digits = some n :=
    l.numeral.fromStrRadix_digits (by decide) hn
  rw [chunkSize, hline]
  cases ht : fromUtf8 l.ext with
  | none =>
    refine iff_of_false nofun fun h => ?_
    rcases h.1 with hnil | ⟨-, t, hsome⟩
    · rw [hnil] at ht
      cases ht
    · cases ht.symm.trans hsome
  | some t =>
    have hext := fromUtf8_eq_some.mp ht
    -- The extension is empty exactly if it decodes to nothing.
    have hempty : t.toList = [] ↔ l.ext = [] := by
      rw [hext, ← String.ofList_toList (s := t), String.toList_ofList]
      exact ⟨fun h => by rw [h]; rfl, fun h => by_contra fun hne => strBytes_ne_nil hne h⟩
    rw [Option.map_some, orMalformed]
    simp only [ok_bind, String.toList_ofList, l.sizeHex_eq (l.head_ext hext)]
    by_cases hnil : l.ext = []
    · -- no extension: the blanks are trimmed
      rw [if_pos (hempty.mpr hnil), hnumeral]
      exact ⟨fun h => ⟨Or.inl hnil, (Except.ok.inj h).symm⟩, fun h => h.2 ▸ rfl⟩
    · rw [if_neg (mt hempty.mp hnil)]
      by_cases hblanks : l.blanks = []
      · rw [hblanks, List.append_nil, hnumeral]
        exact ⟨fun h => ⟨Or.inr ⟨hblanks, t, ht⟩, (Except.ok.inj h).symm⟩, fun h => h.2 ▸ rfl⟩
      · -- the blanks are taken for digits
        obtain ⟨c, blanks, hc⟩ := List.exists_cons_of_ne_nil hblanks
        have hmem : c ∈ l.blanks := hc ▸ List.mem_cons_self
        have hdigit : charDigit 16 c = none := by
          rcases l.blanks_eq c hmem with rfl | rfl
          · decide
          · decide
        rw [l.numeral.fromStrRadix_append hmem hdigit]
        exact iff_of_false nofun fun h => h.1.elim hnil fun h => hblanks h.1

end SizeLine

/-- A chunk of a body. -/
structure Chunk where
  /-- The data. -/
  data : List UInt8
  /-- The size line. -/
  line : SizeLine data.length
  ne_nil : data ≠ []
  length_lt : data.length < 2 ^ 64

/-- The bytes of a chunk. -/
def Chunk.bytes (c : Chunk) : List UInt8 := c.line.bytes ++ (crlf ++ (c.data ++ crlf))

/-- The bytes of a chunked body. -/
def chunkedBytes (chunks : List Chunk) (last : SizeLine 0) (trailer : List UInt8) : List UInt8 :=
  chunks.flatMap Chunk.bytes ++ (last.bytes ++ (crlf ++ trailer))

/-- The loop goes on with the next chunk. -/
theorem dechunkLoop_run_next {d d' : Dechunk} (h : d.pass = .ok (.inl d')) :
    dechunkLoop.run d = dechunkLoop.run d' := Loop.run_of_inl (by simp only [dechunkLoop, h])

/-- It ends with the last one. -/
theorem dechunkLoop_run_done {d : Dechunk} {out : List UInt8} (h : d.pass = .ok (.inr out)) :
    dechunkLoop.run d = .ok out := Loop.run_of_inr (by simp only [dechunkLoop, h])

/-- It ends with an error. -/
theorem dechunkLoop_run_error {d : Dechunk} {e : ResponseFailure} (h : d.pass = .error e) :
    dechunkLoop.run d = .error e := Loop.run_of_inr (by simp only [dechunkLoop, h])

/-- A size line that is not plain ends the loop with an error. -/
theorem SizeLine.dechunkLoop_run_of_not_plain {n : ℕ} {l : SizeLine n} (hn : n < 2 ^ 64)
    (h : ¬ l.Plain) (rest out data : List UInt8) :
    dechunkLoop.run ⟨l.bytes ++ (crlf ++ rest), out⟩ ≠ .ok data := by
  cases hsize : chunkSize l.bytes with
  | ok m => exact absurd ((l.chunkSize_bytes hn m).mp hsize).1 h
  | error e =>
    have hpass := Dechunk.pass_eq (l.findSub_bytes rest) out
    rw [hsize] at hpass
    rw [dechunkLoop_run_error hpass]
    nofun

/-- The last size line ends the loop. -/
theorem SizeLine.dechunkLoop_run_last (last : SizeLine 0) (trailer out data : List UInt8) :
    dechunkLoop.run ⟨last.bytes ++ (crlf ++ trailer), out⟩ = .ok data ↔
      last.Plain ∧ data = out := by
  by_cases hplain : last.Plain
  · have hsize : chunkSize last.bytes = .ok 0 :=
      (last.chunkSize_bytes (by decide) 0).mpr ⟨hplain, rfl⟩
    have hpass := Dechunk.pass_eq (last.findSub_bytes trailer) out
    rw [hsize, ok_bind, if_pos rfl] at hpass
    rw [dechunkLoop_run_done hpass]
    exact ⟨fun h => ⟨hplain, (Except.ok.inj h).symm⟩, fun h => h.2 ▸ rfl⟩
  · exact iff_of_false (SizeLine.dechunkLoop_run_of_not_plain (by decide) hplain trailer out data)
      fun h => hplain h.1

/-- A pass takes a chunk whose size line is plain. -/
theorem Chunk.dechunkLoop_run_chunk (c : Chunk) (rest out data : List UInt8) :
    dechunkLoop.run ⟨c.bytes ++ rest, out⟩ = .ok data ↔
      c.line.Plain ∧ dechunkLoop.run ⟨rest, out ++ c.data⟩ = .ok data := by
  have hbytes : c.bytes ++ rest = c.line.bytes ++ (crlf ++ (c.data ++ (crlf ++ rest))) := by
    simp only [bytes, List.append_assoc]
  rw [hbytes]
  by_cases hplain : c.line.Plain
  · have hsize : chunkSize c.line.bytes = .ok c.data.length :=
      (c.line.chunkSize_bytes c.length_lt _).mpr ⟨hplain, rfl⟩
    have hpos : c.data.length ≠ 0 := mt List.length_eq_zero_iff.mp c.ne_nil
    have hlong : ¬ (c.data ++ (crlf ++ rest)).length < c.data.length := by simp
    have hskip : skipLineEnd (crlf ++ rest) = rest := if_pos (List.prefix_append _ _)
    have hpass := Dechunk.pass_eq (c.line.findSub_bytes (c.data ++ (crlf ++ rest))) out
    rw [hsize, ok_bind, if_neg hpos, if_neg hlong, List.drop_left, List.take_left, hskip] at hpass
    rw [dechunkLoop_run_next hpass]
    exact (and_iff_right hplain).symm
  · exact iff_of_false (SizeLine.dechunkLoop_run_of_not_plain c.length_lt hplain _ out data)
      fun h => hplain h.1

/-- The loop takes one chunk after the other, as long as their size lines are plain. -/
theorem dechunkLoop_run (chunks : List Chunk) (last : SizeLine 0) (trailer out data : List UInt8) :
    dechunkLoop.run ⟨chunkedBytes chunks last trailer, out⟩ = .ok data ↔
      ((∀ c ∈ chunks, c.line.Plain) ∧ last.Plain) ∧ data = out ++ chunks.flatMap Chunk.data := by
  induction chunks generalizing out with
  | nil =>
    rw [chunkedBytes, List.flatMap_nil, List.nil_append, last.dechunkLoop_run_last]
    simp
  | cons c chunks ih =>
    have hbytes : chunkedBytes (c :: chunks) last trailer =
        c.bytes ++ chunkedBytes chunks last trailer := by
      simp only [chunkedBytes, List.flatMap_cons, List.append_assoc]
    rw [hbytes, c.dechunkLoop_run_chunk, ih, List.forall_mem_cons, List.flatMap_cons,
      List.append_assoc]
    constructor
    · rintro ⟨hc, ⟨hchunks, hlast⟩, hdata⟩
      exact ⟨⟨⟨hc, hchunks⟩, hlast⟩, hdata⟩
    · rintro ⟨⟨⟨hc, hchunks⟩, hlast⟩, hdata⟩
      exact ⟨hc, ⟨hchunks, hlast⟩, hdata⟩

/-- A response with a chunked body. -/
structure ChunkedResponse where
  /-- The header block. -/
  header : HeaderBlock
  /-- The body. -/
  body : String
  /-- The chunks that it is cut into. -/
  chunks : List Chunk
  /-- The size line behind them. -/
  last : SizeLine 0
  /-- What stands behind that. -/
  trailer : List UInt8
  chunked : header.Chunked
  flatMap_data : chunks.flatMap Chunk.data = strBytes body

namespace ChunkedResponse

variable (r : ChunkedResponse)

/-- The bytes of the response. -/
def bytes : List UInt8 := r.header.bytes ++ chunkedBytes r.chunks r.last r.trailer

/-- All size lines are plain. -/
def Plain : Prop := (∀ c ∈ r.chunks, c.line.Plain) ∧ r.last.Plain

/-- A chunked response is decoded to its status and its body exactly when all its size lines are
plain. The same body without chunking is always decoded, and no response makes the client slice out
of range. -/
theorem decoded_iff_plain :
    (parseResponse r.bytes = .ok (r.header.statusLine.status, r.body) ↔ r.Plain) ∧
      (∀ h : HeaderBlock, ¬ h.Chunked →
        parseResponse (h.bytes ++ strBytes r.body) = .ok (h.statusLine.status, r.body)) ∧
      ∀ raw, parseResponse raw ≠ .error .outOfRange := by
  refine ⟨?_, ?_, parseResponse_inRange⟩
  -- A chunked body is read by the loop, and every chunk must be plain.
  · rw [bytes, r.header.parseResponse_eq, if_pos (r.header.headerIsChunked_iff.mpr r.chunked),
      dechunk]
    constructor
    · intro h
      obtain ⟨text, htext, -⟩ := bind_eq_ok.mp h
      obtain ⟨out, hout, -⟩ := bind_eq_ok.mp htext
      exact ((dechunkLoop_run _ _ _ _ _).mp hout).1
    · intro hplain
      have hrun := (dechunkLoop_run r.chunks r.last r.trailer [] (strBytes r.body)).mpr
        ⟨hplain, by rw [List.nil_append, r.flatMap_data]⟩
      rw [hrun, ok_bind, fromUtf8_eq_some.mpr rfl]
      rfl
  · intro h hplain
    have hno : headerIsChunked h.text = false :=
      Bool.eq_false_iff.mpr (mt h.headerIsChunked_iff.mp hplain)
    rw [h.parseResponse_eq, hno, if_neg Bool.false_ne_true, fromUtf8_eq_some.mpr rfl]
    rfl

/-- A response with a blank in front of an extension. -/
def blankBeforeExtension : ChunkedResponse where
  header :=
    { statusLine :=
        { version := "1.1".toList
          status := 200
          code := ⟨['2', '0', '0'], [2, 0, 0], by decide, by decide, by decide⟩
          reason := " OK".toList
          version_plain := forall_mem_of_all (by decide)
          status_lt := by decide
          reason_head := fun _ hc => (Option.some.inj hc).symm
          reason_plain := forall_mem_of_all (by decide) }
      fields :=
        [{ name := "Transfer-Encoding".toList
           value := " chunked".toList
           name_plain := forall_mem_of_all (by decide)
           value_plain := forall_mem_of_all (by decide) }] }
  body := "hello"
  chunks :=
    [{ data := [104, 101, 108, 108, 111]
       line :=
        { numeral := ⟨['5'], [5], by decide, by decide, by decide⟩
          blanks := [' ']
          ext := [59, 120]
          blanks_eq := forall_mem_of_all (by decide)
          ext_head := fun _ hb => (Option.some.inj hb).symm
          ext_line := by decide }
       ne_nil := by decide
       length_lt := by decide }]
  last := ⟨⟨['0'], [0], by decide, by decide, by decide⟩, [], [], nofun, nofun, by decide⟩
  trailer := crlf
  chunked := ⟨_, List.mem_singleton_self _, by decide, by decide⟩
  flatMap_data := by decide +kernel

/-- The blank is taken for a digit, so a well-formed response is not decoded. -/
theorem not_decoded_blank :
    parseResponse blankBeforeExtension.bytes = .error (.malformed "chunk size hex") ∧
      ¬ ∀ r : ChunkedResponse,
        parseResponse r.bytes = .ok (r.header.statusLine.status, r.body) := by
  have hfail : parseResponse blankBeforeExtension.bytes = .error (.malformed "chunk size hex") := by
    have hchunked := blankBeforeExtension.header.headerIsChunked_iff.mpr
      blankBeforeExtension.chunked
    have hpass : Dechunk.pass ⟨chunkedBytes blankBeforeExtension.chunks blankBeforeExtension.last
        blankBeforeExtension.trailer, []⟩ = .error (.malformed "chunk size hex") := by
      decide +kernel
    rw [bytes, HeaderBlock.parseResponse_eq, if_pos hchunked, dechunk, dechunkLoop_run_error hpass]
    rfl
  refine ⟨hfail, fun hall => ?_⟩
  have hok := hall blankBeforeExtension
  rw [hfail] at hok
  cases hok

end ChunkedResponse

end LowBand.Signaling
