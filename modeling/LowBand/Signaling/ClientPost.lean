import LowBand.Lib.JsonParser
import LowBand.Signaling.Client

/-!
# The bodies that the signaling client posts

The client of `client.rs` writes its requests without a serializer as well. `json_obj` puts string
members into an object and `json_escape` escapes five characters: quotes, backslashes, line feeds,
carriage returns and tabs. The texts of the other control characters are not JSON
(`reads_jsonEscape`), so a body has its strings exactly when they have no such character
(`parse_body_iff`).

The same characters are the ones that a scan of the server's texts does not give back: it reads
`\b`, `\f` and `\u` as letters (`reread_eq_iff`). The literal is consumed as a whole all the same.
-/

namespace LowBand.Signaling

open Lib Lib.Json

/-! ## The requests -/

/-- A character in `json_escape`. -/
def jsonEscapeChar (c : Char) : List Char :=
  if c = '"' then ['\\', '"']
  else if c = '\\' then ['\\', '\\']
  else if c = '\n' then ['\\', 'n']
  else if c = '\r' then ['\\', 'r']
  else if c = '\t' then ['\\', 't']
  -- the other control characters are not escaped
  else [c]

/-- `json_escape`. -/
def jsonEscape (s : List Char) : List Char := s.flatMap jsonEscapeChar

/-- A field in the loop of `json_obj`. -/
def fieldText (f : List Char × List Char) : List Char :=
  '"' :: (f.1 ++ '"' :: ':' :: '"' :: (jsonEscape f.2 ++ ['"']))

/-- `json_obj`. -/
def jsonObj (fields : List (List Char × List Char)) : List Char :=
  fields.zipIdx.foldl (fun s x => (if 0 < x.2 then s ++ [','] else s) ++ fieldText x.1) ['{'] ++
    ['}']

/-- A call of one of the client's functions that post a body. -/
inductive PostCall where
  | postOffer (code sdp : List Char)
  | postAnswer (code sdp : List Char)
  | postCandidate (code candidate : List Char)
  | markConnected (code : List Char)
  | joinRoom (code participantId pubkeyHex : List Char)
  | postRoomCandidate (code participantId candidate : List Char)

/-- The names and strings that the function puts into the body. -/
def PostCall.fields : PostCall → List (List Char × List Char)
  | .postOffer code sdp => [("session_code".toList, code), ("sdp".toList, sdp)]
  | .postAnswer code sdp => [("session_code".toList, code), ("sdp".toList, sdp)]
  | .postCandidate code candidate =>
    [("session_code".toList, code), ("candidate".toList, candidate)]
  | .markConnected code => [("session_code".toList, code)]
  | .joinRoom code participantId pubkeyHex =>
    [("room_code".toList, code), ("participant_id".toList, participantId),
      ("pubkey".toList, pubkeyHex)]
  | .postRoomCandidate code participantId candidate =>
    [("room_code".toList, code), ("participant_id".toList, participantId),
      ("candidate".toList, candidate)]

/-- The body of the request. -/
def PostCall.body (call : PostCall) : List Char := jsonObj call.fields

/-! ## What a parser reads of a body -/

/-- Not a control character, or one with an escape in `json_escape`. -/
def Postable (c : Char) : Prop := 32 ≤ c.toNat ∨ c = '\n' ∨ c = '\r' ∨ c = '\t'

/-- Whether a character can be posted can be decided. -/
instance (c : Char) : Decidable (Postable c) := inferInstanceAs (Decidable (_ ∨ _))

/-- An escaped character is read as itself. -/
theorem stringBody_jsonEscapeChar {c : Char} (hc : Postable c) (t : List Char) :
    stringBody (jsonEscapeChar c ++ t) = (stringBody t).map fun (s, r) => (c :: s, r) := by
  unfold jsonEscapeChar
  split_ifs with hquote hback hn hr ht
  · rw [hquote]; exact stringBody_simpleEscape (by decide) rfl t
  · rw [hback]; exact stringBody_simpleEscape (by decide) rfl t
  · rw [hn]; exact stringBody_simpleEscape (by decide) rfl t
  · rw [hr]; exact stringBody_simpleEscape (by decide) rfl t
  · rw [ht]; exact stringBody_simpleEscape (by decide) rfl t
  · have hcontrol : 32 ≤ c.toNat := by simpa [Postable, hn, hr, ht] using hc
    exact stringBody_plain hquote hback hcontrol t

/-- Nothing is read when a control character is left as it is. -/
theorem stringBody_of_not_postable {c : Char} (hc : ¬Postable c) (t : List Char) :
    stringBody (jsonEscapeChar c ++ t) = none := by
  obtain ⟨hcontrol, hn, hr, ht⟩ : c.toNat < 32 ∧ c ≠ '\n' ∧ c ≠ '\r' ∧ c ≠ '\t' := by
    simpa [Postable] using hc
  have hne : ∀ d : Char, 32 ≤ d.toNat → c ≠ d := by
    rintro d hd rfl
    omega
  rw [jsonEscapeChar, if_neg (hne _ (by decide)), if_neg (hne _ (by decide)), if_neg hn, if_neg hr,
    if_neg ht]
  exact stringBody_control hcontrol t

/-- An escaped string is read as itself exactly when all its characters can be posted. -/
theorem reads_jsonEscape (s : List Char) :
    Reads stringBody anyRest (jsonEscape s ++ ['"']) s (∀ c ∈ s, Postable c) := by
  suffices h : ∀ r, ((∀ c ∈ s, Postable c) → stringBody (jsonEscape s ++ '"' :: r) = some (s, r)) ∧
      ∀ r', stringBody (jsonEscape s ++ '"' :: r) = some (s, r') → ∀ c ∈ s, Postable c by
    refine ⟨fun hs r _ => ?_, fun r r' _ hread => ?_⟩
    · rw [List.append_assoc]
      exact (h r).1 hs
    · rw [List.append_assoc] at hread
      exact (h r).2 r' hread
  intro r
  -- by the first character: when it can be posted, what is read goes on with the others
  induction s with
  | nil => exact ⟨fun _ => stringBody_quote r, fun _ _ => List.forall_mem_nil _⟩
  | cons c s ih =>
    rw [jsonEscape, List.flatMap_cons, List.append_assoc, List.forall_mem_cons]
    by_cases hc : Postable c
    · rw [stringBody_jsonEscapeChar hc]
      refine ⟨fun hs => ?_, fun r' hread => ⟨hc, ?_⟩⟩
      · exact congrArg _ (ih.1 hs.2)
      · exact ih.2 r' (map_pair_eq_some List.cons_injective hread)
    · rw [stringBody_of_not_postable hc]
      exact ⟨fun hs => absurd hs.1 hc, fun _ h => by cases h⟩

/-- A member of a body. -/
theorem reads_fieldText (n : ℕ) {f : List Char × List Char} (hkey : PlainText f.1) :
    Reads (readMember (readValue (n + 1))) anyRest (fieldText f) (f.1, .str f.2)
      (∀ c ∈ f.2, Postable c) :=
  (reads_jsonEscape f.2).str.member hkey

/-- The fields of a body with commas between them. -/
theorem jsonObj_eq (fields : List (List Char × List Char)) :
    jsonObj fields = '{' :: (joinText ',' (fields.map fieldText) ++ ['}']) := by
  rw [jsonObj, foldl_zipIdx_join]
  rfl

/-- An object of string members is read back exactly when all its strings can be posted. -/
theorem parse_jsonObj_iff {fields : List (List Char × List Char)} (hne : fields ≠ [])
    (hkeys : ∀ f ∈ fields, PlainText f.1) :
    parse (jsonObj fields) = some (.obj (fields.map fun f => (f.1, .str f.2))) ↔
      ∀ f ∈ fields, ∀ c ∈ f.2, Postable c := by
  have hmembers : ∀ n, ReadsItems (readMember (readValue (n + 1))) '}'
      (joinText ',' (fields.map fieldText) ++ ['}']) (fields.map fun f => (f.1, .str f.2))
      (∀ f ∈ fields, ∀ c ∈ f.2, Postable c) :=
    fun n => .join hne (fun f hf => reads_fieldText n (hkeys f hf)) (by decide) (by decide)
  -- the text of the members starts with a quote
  obtain ⟨u, hu⟩ : ∃ u, joinText ',' (fields.map fieldText) ++ ['}'] = '"' :: u := by
    match fields, hne with
    | [f], _ => exact ⟨_, rfl⟩
    | f :: g :: fs, _ => exact ⟨_, rfl⟩
  rw [jsonObj_eq]
  rw [hu] at hmembers ⊢
  exact Reads.parse_obj_iff ((hmembers _).bracketed (by decide) (by decide))

/-- The names that the client posts are plain. -/
theorem PostCall.plainText_fields (call : PostCall) : ∀ f ∈ call.fields, PlainText f.1 := by
  cases call <;> simp [PostCall.fields, PlainText]

/-- A body is read back exactly when all its strings can be posted. -/
theorem parse_body_iff (call : PostCall) :
    parse call.body = some (.obj (call.fields.map fun f => (f.1, .str f.2))) ↔
      ∀ f ∈ call.fields, ∀ c ∈ f.2, Postable c :=
  parse_jsonObj_iff (by cases call <;> simp [PostCall.fields]) call.plainText_fields

/-! ## What the client reads of a string of the server -/

/-- Another control character is read as a letter. -/
theorem unescaped_escapeChar_control {c : Char} (hc : ¬Postable c) (e : List Char) :
    ∃ x u, unescaped (escapeChar c ++ e) = x :: u ∧ x ≠ c := by
  obtain ⟨hcontrol, hn, hr, ht⟩ : c.toNat < 32 ∧ c ≠ '\n' ∧ c ≠ '\r' ∧ c ≠ '\t' := by
    simpa [Postable] using hc
  have hne : ∀ d : Char, 32 ≤ d.toNat → d ≠ c := by
    rintro d hd rfl
    omega
  unfold escapeChar
  split_ifs with hquote hback
  · exact absurd hquote.symm (hne _ (by decide))
  · exact absurd hback.symm (hne _ (by decide))
  · exact ⟨'b', _, rfl, hne _ (by decide)⟩
  · exact ⟨'f', _, rfl, hne _ (by decide)⟩
  · exact ⟨'u', _, rfl, hne _ (by decide)⟩

/-- The client reads a string as it is exactly when all its characters can be posted. -/
theorem reread_eq_iff (s : List Char) : reread s = s ↔ ∀ c ∈ s, Postable c := by
  refine ⟨fun h => ?_, reread_eq⟩
  induction s with
  | nil => exact List.forall_mem_nil _
  | cons c s ih =>
    rw [reread, escape, List.flatMap_cons] at h
    have hc : Postable c := by
      by_contra hc
      obtain ⟨x, u, hread, hx⟩ := unescaped_escapeChar_control hc (s.flatMap escapeChar)
      rw [hread] at h
      exact hx (List.cons.inj h).1
    rw [unescaped_escapeChar hc] at h
    exact List.forall_mem_cons.mpr ⟨hc, ih (List.cons.inj h).2⟩

/-- A string of the server is scanned as itself, with the length of its literal, exactly when all
its characters can be posted. -/
theorem scanJsonString_str_iff (s rest : List Char) :
    scanJsonString (Token.text (.str s) ++ rest) = some (s, (Token.text (.str s)).length) ↔
      ∀ c ∈ s, Postable c := by
  rw [scanJsonString_str, Option.some.injEq, Prod.mk.injEq, and_iff_left rfl]
  exact reread_eq_iff s

/-- For every post of the client, the body is JSON that parses back to the strings exactly when they
have no control character besides line feeds, carriage returns and tabs; and these are the strings
of the server that a scan gives back. -/
theorem signaling_strings_iff (call : PostCall) (s rest : List Char) :
    (parse call.body = some (.obj (call.fields.map fun f => (f.1, .str f.2))) ↔
      ∀ f ∈ call.fields, ∀ c ∈ f.2, Postable c) ∧
    (scanJsonString (Token.text (.str s) ++ rest) = some (s, (Token.text (.str s)).length) ↔
      ∀ c ∈ s, Postable c) :=
  ⟨parse_body_iff call, scanJsonString_str_iff s rest⟩

/-- The body of an offer with a control character is not JSON, and a backspace of the server is read
as a letter. -/
theorem not_signaling_strings :
    (¬∀ call : PostCall, parse call.body =
        some (.obj (call.fields.map fun f => (f.1, .str f.2)))) ∧
      ¬∀ s rest : List Char, scanJsonString (Token.text (.str s) ++ rest) =
        some (s, (Token.text (.str s)).length) := by
  constructor
  · intro hbody
    have hsafe := (parse_body_iff (.postOffer "100000001".toList ['\x01'])).mp (hbody _)
    exact absurd (hsafe _ (.tail _ (.head _)) '\x01' (.head _)) (by decide)
  · intro hscan
    have hsafe := (scanJsonString_str_iff ['\x08'] []).mp (hscan _ _)
    exact absurd (hsafe '\x08' (.head _)) (by decide)

end LowBand.Signaling
