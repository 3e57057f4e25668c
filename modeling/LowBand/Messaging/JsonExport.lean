import LowBand.Crypto.KnownPeers
import LowBand.Lib.Inet
import LowBand.Messaging.SignedExport

/-!
# The JSON exports

`export_json` of the audit log writes the event types and capabilities as they are, that of the
known peers escapes the quotes of the labels. What is written is characters in UTF-8
(`exportJson_utf8`). An event type or capability is read back exactly when it has no quote, no
backslash and no control character, a label when it has no backslash and no control character. So
the exports of some logs and stores are well formed and tell them apart exactly when all their
strings are so (`exports_faithful_iff`).
-/

namespace LowBand.Messaging

open Lib Lib.Json Crypto

/-! ## Characters -/

/-- The characters of text. -/
def chars (bytes : List UInt8) : List Char := ((fromUtf8 bytes).getD "").toList

/-- The bytes of characters. -/
def utf8 (s : List Char) : List UInt8 := strBytes (String.ofList s)

/-- The strings of the entry are text. -/
def AuditEntry.IsUtf8 (e : AuditEntry) : Prop :=
  (fromUtf8 e.eventType).isSome ∧ ∀ c ∈ e.capability, (fromUtf8 c).isSome

/-- The bytes of two texts follow each other. -/
theorem utf8_append (s t : List Char) : utf8 (s ++ t) = utf8 s ++ utf8 t := by
  rw [utf8, String.ofList_append, strBytes_append]
  rfl

/-- The bytes of a literal. -/
theorem utf8_toList (s : String) : utf8 s.toList = strBytes s := by
  rw [utf8, String.ofList_toList]

/-- The bytes of a text are decoded to it. -/
theorem fromUtf8_utf8 (s : List Char) : fromUtf8 (utf8 s) = some (String.ofList s) :=
  fromUtf8_eq_some.mpr rfl

/-- So are its characters. -/
theorem chars_utf8 (s : List Char) : chars (utf8 s) = s := by
  rw [chars, fromUtf8_utf8, Option.getD_some, String.toList_ofList]

/-- Text is the bytes of its characters. -/
theorem utf8_chars {bytes : List UInt8} (h : (fromUtf8 bytes).isSome) :
    utf8 (chars bytes) = bytes := by
  obtain ⟨s, hs⟩ := Option.isSome_iff_exists.mp h
  rw [chars, hs, Option.getD_some, utf8_toList]
  exact (fromUtf8_eq_some.mp hs).symm

/-- Hexadecimal digits as bytes. -/
theorem utf8_hexChars (bs : List UInt8) : utf8 (hexChars bs) = hexEncode bs := by
  have hall : ∀ d < 16, (Nat.digitChar d).toNat < 128 := by decide
  rw [utf8, strBytes_ascii, map_hexChars]
  intro c hc
  obtain ⟨d, hd, rfl⟩ := mem_hexChars hc
  exact hall d hd

/-- Decimal digits as bytes. -/
theorem utf8_toDigits (n : ℕ) : utf8 (Nat.toDigits 10 n) = decimal n :=
  strBytes_ascii fun _ hc => (toNat_of_mem_toDigits hc).2.trans_lt (by decide)

/-- Separators between texts are separators between their bytes. -/
theorem utf8_joinText (ts : List (List Char)) :
    utf8 (joinText ',' ts) = joinText 44 (ts.map utf8) := by
  induction ts using joinText.induct with
  | case1 => rfl
  | case2 t => rfl
  | case3 t u ts ih =>
    have hcons : ∀ s, utf8 (',' :: s) = 44 :: utf8 s := fun s => utf8_append [','] s
    rw [joinText, utf8_append, hcons, ih]
    rfl

/-! ## The audit log -/

/-- The members of an entry. -/
def AuditEntry.fields (e : AuditEntry) : List (List Char × Value) :=
  [("event_type".toList, .str (chars e.eventType)),
    ("capability".toList, optionalValue (e.capability.map chars)),
    ("identity_key".toList, optionalValue (e.identityKey.map fun k => hexChars k.val)),
    ("occurred_at_ms".toList, .num (Nat.toDigits 10 e.occurredAtMs.toNat)),
    ("signature".toList, .str (hexChars e.signature.val))]

/-- The value that the export stands for. -/
def AuditLog.value (log : AuditLog) : Value :=
  .obj [("entries".toList, .arr (log.entries.map fun e => .obj e.fields))]

/-- An entry without quotes, backslashes and control characters. -/
def AuditEntry.Plain (e : AuditEntry) : Prop :=
  Clean false (chars e.eventType) ∧ ∀ c ∈ e.capability, Clean false (chars c)

/-- The text of an entry behind its opening brace. -/
def AuditEntry.body (e : AuditEntry) : List Char :=
  memberText "event_type".toList ('"' :: (rawText false (chars e.eventType) ++ ['"'])) ++ ',' ::
    (memberText "capability".toList (optionalText false (e.capability.map chars)) ++ ',' ::
      (memberText "identity_key".toList
          (optionalText false (e.identityKey.map fun k => hexChars k.val)) ++ ',' ::
        (memberText "occurred_at_ms".toList (Nat.toDigits 10 e.occurredAtMs.toNat) ++ ',' ::
          (memberText "signature".toList ('"' :: (hexChars e.signature.val ++ ['"'])) ++ ['}']))))

/-- A text as a value. -/
def parseUtf8 (bytes : List UInt8) : Option Value := (fromUtf8 bytes).bind fun s => parse s.toList

/-- Parsing the bytes of a text is parsing the text. -/
theorem parseUtf8_utf8 (s : List Char) : parseUtf8 (utf8 s) = parse s := by
  rw [parseUtf8, fromUtf8_utf8, Option.bind_some, String.toList_ofList]

/-- The characters of an optional string in quotes. -/
theorem utf8_optionalText (s : Option (List Char)) :
    utf8 (optionalText false s) = (s.map fun s => quoted (utf8 s)).getD (strBytes "null") := by
  cases s with
  | none => exact utf8_toList "null"
  | some s =>
    rw [optionalText, rawText_false]
    simp only [Option.map_some, Option.getD_some, quoted, ← utf8_toList, ← utf8_append]
    simp

/-- The characters of an entry. -/
theorem entryToJson_utf8 {e : AuditEntry} (h : e.IsUtf8) :
    entryToJson e = utf8 ('{' :: e.body) := by
  have hcap : e.capability.map (fun c => quoted (utf8 (chars c))) = e.capability.map quoted :=
    Option.map_congr fun c hc => congrArg quoted (utf8_chars (h.2 c hc))
  -- Every piece is the encoding of some text, so the whole is.
  have hentry : entryToJson e =
      strBytes "\x7b\"event_type\":\"" ++ utf8 (chars e.eventType) ++
        strBytes "\",\"capability\":" ++ utf8 (optionalText false (e.capability.map chars)) ++
        strBytes ",\"identity_key\":" ++
        utf8 (optionalText false (e.identityKey.map fun k => hexChars k.val)) ++
        strBytes ",\"occurred_at_ms\":" ++ utf8 (Nat.toDigits 10 e.occurredAtMs.toNat) ++
        strBytes ",\"signature\":\"" ++ utf8 (hexChars e.signature.val) ++ strBytes "\"\x7d" := by
    rw [utf8_chars h.1, utf8_optionalText, utf8_optionalText, utf8_toDigits, utf8_hexChars,
      Option.map_map, Option.map_map]
    simp only [Function.comp_def, hcap, utf8_hexChars]
    unfold entryToJson
    cases e.capability <;> cases e.identityKey <;> rfl
  rw [hentry]
  unfold AuditEntry.body
  rw [rawText_false]
  generalize chars e.eventType = type, Nat.toDigits 10 e.occurredAtMs.toNat = time,
    hexChars e.signature.val = sig, optionalText false (e.capability.map chars) = cap,
    optionalText false (e.identityKey.map fun k => hexChars k.val) = key
  simp only [← utf8_toList, ← utf8_append]
  exact congrArg utf8 (by simp [memberText])

/-- The characters of an export. -/
theorem exportJson_utf8 {log : AuditLog} (h : ∀ e ∈ log.entries, e.IsUtf8) :
    log.exportJson = utf8 (tableText "entries".toList (log.entries.map AuditEntry.body)) := by
  have hentries : log.entries.map entryToJson =
      ((log.entries.map AuditEntry.body).map ('{' :: ·)).map utf8 := by
    rw [List.map_map, List.map_map]
    refine List.map_congr_left fun e he => ?_
    simp only [Function.comp_apply]
    exact entryToJson_utf8 (h e he)
  have hcomma : strBytes "," = [44] := rfl
  rw [AuditLog.exportJson, hcomma, foldl_zipIdx_join, hentries, ← utf8_joinText]
  simp only [← utf8_toList, ← utf8_append]
  exact congrArg utf8 (by simp [tableText, memberText])

/-- An entry is read back exactly when its strings are plain. -/
theorem AuditEntry.reads_body (n : ℕ) (e : AuditEntry) :
    Reads (bracketed (readMember (readValue (n + 1))) '}') anyRest e.body e.fields e.Plain := by
  have hname : ∀ k ∈ e.fields.map Prod.fst, PlainText k := by simp [fields, PlainText]
  simp only [fields, List.map_cons, List.map_nil, List.forall_mem_cons] at hname
  obtain ⟨htype, hcap, hkey, htime, hsig, -⟩ := hname
  -- from the last member to the first, each in front of what follows it
  have hitems := ReadsItems.last
    (((reads_stringBody (plainText_hexChars e.signature.val)).str (n := n)).member hsig)
    (by decide : isSpace '}' = false) (by decide) fun _ => trivial
  have hitems := ReadsItems.cons ((reads_num n e.occurredAtMs.toNat).member htime) hitems
    fun r => ⟨',', _, .inl rfl, rfl⟩
  have hitems := ReadsItems.cons
    ((reads_optionalText n false (e.identityKey.map fun k => hexChars k.val)).member hkey) hitems
    fun r => ⟨_, rfl⟩
  have hitems := ReadsItems.cons
    ((reads_optionalText n false (e.capability.map chars)).member hcap) hitems fun r => ⟨_, rfl⟩
  have hitems := ReadsItems.cons ((reads_rawText false (chars e.eventType)).str.member htype)
    hitems fun r => ⟨_, rfl⟩
  refine (hitems.bracketed (by decide) (by decide)).congr ?_
  have hhex : ∀ k ∈ e.identityKey, Clean false (hexChars k.val) :=
    fun k _ => (plainText_hexChars k.val).clean false
  simpa [Plain] using fun _ _ => hhex

/-- The members name the entry. -/
theorem AuditEntry.fields_inj {e e' : AuditEntry} (he : e.IsUtf8) (he' : e'.IsUtf8)
    (h : e.fields = e'.fields) : e = e' := by
  -- Decoding loses nothing on valid text.
  have hchars : ∀ {s t : List UInt8}, (fromUtf8 s).isSome → (fromUtf8 t).isSome →
      chars s = chars t → s = t := by
    intro s t hs ht heq
    rw [← utf8_chars hs, heq, utf8_chars ht]
  obtain ⟨⟨type, cap, key, time⟩, sig⟩ := e
  obtain ⟨⟨type', cap', key', time'⟩, sig'⟩ := e'
  simp only [fields, List.cons.injEq, Prod.mk.injEq, Value.num.injEq, Value.str.injEq, true_and,
    and_true] at h
  obtain ⟨htype, hcap, hkey, htime, hsig⟩ := h
  obtain rfl := hchars he.1 he'.1 htype
  -- Field by field, for each text is read back.
  obtain rfl : cap = cap' := by
    have hmap := optionalValue_inj hcap
    cases cap with
    | none => cases cap' <;> simp_all
    | some c =>
      cases cap' with
      | none => cases hmap
      | some c' => rw [hchars (he.2 c rfl) (he'.2 c' rfl) (Option.some.inj hmap)]
  obtain rfl : key = key' :=
    Option.map_injective (fun _ _ hk => Bytes.ext_val (hexChars_inj hk)) (optionalValue_inj hkey)
  rw [UInt64.toNat_inj.mp (toDigits_inj htime), Bytes.ext_val (hexChars_inj hsig)]

/-- The value of a log names its entries. -/
theorem AuditLog.value_inj {log log' : AuditLog} (hlog : ∀ e ∈ log.entries, e.IsUtf8)
    (hlog' : ∀ e ∈ log'.entries, e.IsUtf8) (h : log.value = log'.value) :
    log.entries = log'.entries := by
  simp only [value, Value.obj.injEq, List.cons.injEq, Prod.mk.injEq, Value.arr.injEq, true_and,
    and_true] at h
  generalize log.entries = es at hlog h
  generalize log'.entries = es' at hlog' h
  -- By induction on the entries, pair by pair.
  induction es generalizing es' with
  | nil =>
    cases es' with
    | nil => rfl
    | cons e' es' => cases h
  | cons e es ih =>
    cases es' with
    | nil => cases h
    | cons e' es' =>
      obtain ⟨he, hes⟩ := List.forall_mem_cons.mp hlog
      obtain ⟨he', hes'⟩ := List.forall_mem_cons.mp hlog'
      obtain ⟨hfields, hrest⟩ := List.cons.inj h
      rw [AuditEntry.fields_inj he he' (Value.obj.inj hfields), ih hes es' hes' hrest]

/-- The export of a log is read back exactly when all its entries are plain. -/
theorem AuditLog.parse_exportJson_iff {log : AuditLog} (h : ∀ e ∈ log.entries, e.IsUtf8) :
    parseUtf8 log.exportJson = some log.value ↔ ∀ e ∈ log.entries, e.Plain := by
  rw [exportJson_utf8 h, parseUtf8_utf8]
  exact parse_tableText_iff (by simp [PlainText]) AuditEntry.reads_body log.entries

/-- The exports of some logs are faithful exactly when all entries are plain. -/
theorem AuditLog.faithful_iff {logs : Set AuditLog}
    (hutf8 : ∀ log ∈ logs, ∀ e ∈ log.entries, e.IsUtf8) :
    Faithful AuditLog.exportJson parseUtf8 AuditLog.value AuditLog.entries logs ↔
      ∀ log ∈ logs, ∀ e ∈ log.entries, e.Plain := by
  have hvalue : ∀ log ∈ logs, ∀ log' ∈ logs, AuditLog.value log = AuditLog.value log' →
      log.entries = log'.entries :=
    fun log hlog log' hlog' => value_inj (hutf8 log hlog) (hutf8 log' hlog')
  rw [Json.faithful_iff hvalue]
  exact forall₂_congr fun log hlog => parse_exportJson_iff (hutf8 log hlog)

/-! ## Both exports -/

/-- For all logs and stores: their exports are well formed, give the stored strings back, and differ
for different entries and peers, exactly when no event type or capability has a quote, a backslash
or a control character and no label has a backslash or a control character. -/
theorem exports_faithful_iff (logs : Set AuditLog) (stores : Set KnownPeerStore)
    (hutf8 : ∀ log ∈ logs, ∀ e ∈ log.entries, e.IsUtf8) :
    (Faithful AuditLog.exportJson parseUtf8 AuditLog.value AuditLog.entries logs ∧
      Faithful KnownPeerStore.exportJson parse KnownPeerStore.value KnownPeerStore.peers stores) ↔
    (∀ log ∈ logs, ∀ e ∈ log.entries, e.Plain) ∧
      ∀ store ∈ stores, ∀ p ∈ store.peers, p.PlainLabel :=
  and_congr (AuditLog.faithful_iff hutf8) KnownPeerStore.faithful_iff

/-- A log of one event. -/
def oneEventLog (eventType capability : List Char) : AuditLog :=
  .build (Bytes.fill 32 0) [⟨utf8 eventType, some (utf8 capability), none, 1000⟩]

/-- A store of one peer with a label. -/
def oneLabelStore (label : List Char) : KnownPeerStore :=
  ((KnownPeerStore.new.upsert (Bytes.fill 32 0) 1000).2.setLabel 1 label).2

/-- The entry of a log of one event. -/
theorem mem_oneEventLog {eventType capability : List Char} {e : AuditEntry}
    (h : e ∈ (oneEventLog eventType capability).entries) :
    e.eventType = utf8 eventType ∧ e.capability = some (utf8 capability) := by
  obtain rfl := List.mem_singleton.mp h
  exact ⟨rfl, rfl⟩

/-- The label of a store of one peer. -/
theorem mem_oneLabelStore {label : List Char} {p : KnownPeer}
    (h : p ∈ (oneLabelStore label).peers) :
    p.displayLabel = some (truncateTo120Bytes label) := by
  obtain rfl := List.mem_singleton.mp h
  rfl

/-- The texts of such a log are UTF-8. -/
theorem oneEventLog_isUtf8 (eventType capability : List Char) :
    ∀ e ∈ (oneEventLog eventType capability).entries, e.IsUtf8 := by
  intro e he
  obtain ⟨htype, hcap⟩ := mem_oneEventLog he
  simp [AuditEntry.IsUtf8, htype, hcap, fromUtf8_utf8]

/-- An event and a label that are plain. -/
theorem exports_faithful_plain :
    Faithful AuditLog.exportJson parseUtf8 AuditLog.value AuditLog.entries
        {oneEventLog "grant".toList "screen".toList} ∧
      Faithful KnownPeerStore.exportJson parse KnownPeerStore.value KnownPeerStore.peers
        {oneLabelStore "my \"laptop\"".toList} := by
  refine (exports_faithful_iff _ _ ?_).mpr ⟨?_, ?_⟩
  · rintro log rfl
    exact oneEventLog_isUtf8 _ _
  · rintro log rfl e he
    obtain ⟨htype, hcap⟩ := mem_oneEventLog he
    simp [AuditEntry.Plain, htype, hcap, chars_utf8, Clean]
  · rintro store rfl p hp l hl
    rw [mem_oneLabelStore hp, Option.mem_some_iff, truncateTo120Bytes, if_pos (by decide)] at hl
    rw [← hl]
    simp [Clean]

/-- An event type with a quote, and a label that is a backslash. -/
theorem not_exports_faithful :
    ¬Faithful AuditLog.exportJson parseUtf8 AuditLog.value AuditLog.entries
        {oneEventLog ['a', '"', 'b'] "screen".toList} ∧
      ¬Faithful KnownPeerStore.exportJson parse KnownPeerStore.value KnownPeerStore.peers
        {oneLabelStore ['\\']} := by
  constructor
  · rw [AuditLog.faithful_iff (by rintro log rfl; exact oneEventLog_isUtf8 _ _)]
    intro hplain
    obtain ⟨e, he⟩ : ∃ e, e ∈ (oneEventLog ['a', '"', 'b'] "screen".toList).entries :=
      ⟨_, List.mem_singleton_self _⟩
    have hclean := (hplain _ rfl e he).1
    rw [(mem_oneEventLog he).1, chars_utf8] at hclean
    exact Bool.false_ne_true ((hclean '"' (.tail _ (.head _))).2.2 rfl)
  · rw [KnownPeerStore.faithful_iff]
    intro hplain
    have hlabel := hplain _ rfl _ (List.mem_singleton_self _) ['\\'] rfl
    exact (hlabel '\\' (.head _)).1 rfl

end LowBand.Messaging
