import LowBand.Lib.JsonParser
import LowBand.Messaging.SessionRecords

/-!
# The export of the session records

`export_json` of `session_records.rs` writes the records without a JSON library. Everything it
writes is digits, hexadecimal digits and fixed words, so no character needs an escape: the export of
any store is read back as its records (`parse_exportJson`), and `export_history` puts this behind
the observer, from the governor's events to the text.
-/

namespace LowBand.Messaging

open Lib Lib.Json

/-- `as_str`. -/
def Tier.asStr : Tier → List Char
  | .survival => "Survival".toList
  | .constrained => "Constrained".toList
  | .comfortable => "Comfortable".toList
  | .full => "Full".toList

/-- `record_to_json`. -/
def recordToJson (r : SessionRecord) : List Char :=
  let peerKeyField :=
    match r.peerKey with
    | some k => quoted (hexChars k.val)
    | none => "null".toList
  let endedField :=
    match r.endedAtMs with
    | some ms => Nat.toDigits 10 ms
    | none => "null".toList
  let tierField :=
    match r.peakTier with
    | some t => quoted t.asStr
    | none => "null".toList
  "\x7b\"connection_id\":".toList ++ Nat.toDigits 10 r.connectionId ++
    ",\"peer_key\":".toList ++ peerKeyField ++
    ",\"started_at_ms\":".toList ++ Nat.toDigits 10 r.startedAtMs ++
    ",\"ended_at_ms\":".toList ++ endedField ++
    ",\"peak_tier\":".toList ++ tierField ++
    ",\"total_bytes\":".toList ++ Nat.toDigits 10 r.totalBytes ++ "\x7d".toList

/-- `export_json`. -/
def SessionRecordStore.exportJson (store : SessionRecordStore) : List Char :=
  store.records.zipIdx.foldl
      (fun buf (r, i) => (if i > 0 then buf ++ [','] else buf) ++ recordToJson r)
      "\x7b\"session_records\":[".toList ++
    "]\x7d".toList

/-! ## The values -/

/-- A number or nothing. -/
def optionalNum (n : Option ℕ) : Value := n.elim .null fun n => .num (Nat.toDigits 10 n)

/-- The members of a record. -/
def SessionRecord.fields (r : SessionRecord) : List (List Char × Value) :=
  [("connection_id".toList, .num (Nat.toDigits 10 r.connectionId)),
    ("peer_key".toList, optionalValue (r.peerKey.map fun k => hexChars k.val)),
    ("started_at_ms".toList, .num (Nat.toDigits 10 r.startedAtMs)),
    ("ended_at_ms".toList, optionalNum r.endedAtMs),
    ("peak_tier".toList, optionalValue (r.peakTier.map Tier.asStr)),
    ("total_bytes".toList, .num (Nat.toDigits 10 r.totalBytes))]

/-- The value of an array of records. -/
def recordsValue (records : List SessionRecord) : Value :=
  .obj [("session_records".toList, .arr (records.map fun r => .obj r.fields))]

/-- The text of an optional number. -/
def optionalNumText : Option ℕ → List Char
  | some n => Nat.toDigits 10 n
  | none => ['n', 'u', 'l', 'l']

/-- The text of a record behind its opening brace. -/
def SessionRecord.body (r : SessionRecord) : List Char :=
  memberText "connection_id".toList (Nat.toDigits 10 r.connectionId) ++ ',' ::
    (memberText "peer_key".toList
        (optionalText false (r.peerKey.map fun k => hexChars k.val)) ++ ',' ::
      (memberText "started_at_ms".toList (Nat.toDigits 10 r.startedAtMs) ++ ',' ::
        (memberText "ended_at_ms".toList (optionalNumText r.endedAtMs) ++ ',' ::
          (memberText "peak_tier".toList (optionalText false (r.peakTier.map Tier.asStr)) ++ ',' ::
            (memberText "total_bytes".toList (Nat.toDigits 10 r.totalBytes) ++ ['}'])))))

/-- The text of a record. -/
theorem recordToJson_eq (r : SessionRecord) : recordToJson r = '{' :: r.body := by
  -- The optional fields are written as one text or as `null`.
  have hpeer : (match r.peerKey with
      | some k => quoted (hexChars k.val)
      | none => "null".toList) = optionalText false (r.peerKey.map fun k => hexChars k.val) := by
    cases r.peerKey with
    | none => rfl
    | some k => simp [optionalText, quoted, rawText_false]
  have hended : (match r.endedAtMs with
      | some ms => Nat.toDigits 10 ms
      | none => "null".toList) = optionalNumText r.endedAtMs := by
    cases r.endedAtMs <;> rfl
  have htier : (match r.peakTier with
      | some t => quoted t.asStr
      | none => "null".toList) = optionalText false (r.peakTier.map Tier.asStr) := by
    cases r.peakTier with
    | none => rfl
    | some t => simp [optionalText, quoted, rawText_false]
  unfold recordToJson SessionRecord.body
  dsimp only
  rw [hpeer, hended, htier]
  simp [memberText]

/-- The text of an export. -/
theorem exportJson_eq (store : SessionRecordStore) :
    store.exportJson = tableText "session_records".toList (store.records.map (·.body)) := by
  have hrecords : store.records.map recordToJson =
      (store.records.map (·.body)).map ('{' :: ·) := by
    rw [List.map_map]
    exact List.map_congr_left fun r _ => recordToJson_eq r
  unfold SessionRecordStore.exportJson
  rw [foldl_zipIdx_join, hrecords]
  simp [tableText, memberText]

/-! ## Reading it back -/

/-- An optional number in front of closing punctuation. -/
theorem reads_optionalNum (m : ℕ) (n : Option ℕ) :
    Reads (readValue (m + 1)) (fun r => ∃ c q, Closing c ∧ r = c :: q) (optionalNumText n)
      (optionalNum n) True := by
  cases n with
  | none => exact reads_null.mono fun _ _ => trivial
  | some n => exact reads_num m n

/-- The value tells an optional number. -/
theorem optionalNum_inj {n n' : Option ℕ} (h : optionalNum n = optionalNum n') : n = n' := by
  cases n with
  | none =>
    cases n' with
    | none => rfl
    | some n' => cases h
  | some n =>
    cases n' with
    | none => cases h
    | some n' => rw [toDigits_inj (Value.num.inj h)]

/-- The names of the tiers are plain texts. -/
theorem plainText_asStr (t : Tier) : PlainText t.asStr := by
  cases t
  · show PlainText "Survival".toList
    simp [PlainText]
  · show PlainText "Constrained".toList
    simp [PlainText]
  · show PlainText "Comfortable".toList
    simp [PlainText]
  · show PlainText "Full".toList
    simp [PlainText]

/-- They differ. -/
theorem asStr_injective : Function.Injective Tier.asStr := by
  intro t t' h
  cases t <;> cases t' <;> first | rfl | exact absurd h (by decide)

/-- A record is read back. -/
theorem SessionRecord.reads_body (n : ℕ) (r : SessionRecord) :
    Reads (bracketed (readMember (readValue (n + 1))) '}') anyRest r.body r.fields True := by
  have hname : ∀ k ∈ r.fields.map Prod.fst, PlainText k := by simp [fields, PlainText]
  simp only [fields, List.map_cons, List.map_nil, List.forall_mem_cons] at hname
  obtain ⟨hid, hpeer, hstart, hend, htier, htotal, -⟩ := hname
  -- from the last member to the first, each in front of what follows it
  have hitems := ReadsItems.last ((reads_num n r.totalBytes).member htotal)
    (by decide : isSpace '}' = false) (by decide)
    fun r => ⟨'}', r, .inr (.inr rfl), rfl⟩
  have hitems := ReadsItems.cons
    ((reads_optionalText n false (r.peakTier.map Tier.asStr)).member htier) hitems
    fun r => ⟨_, rfl⟩
  have hitems := ReadsItems.cons ((reads_optionalNum n r.endedAtMs).member hend) hitems
    fun r => ⟨',', _, .inl rfl, rfl⟩
  have hitems := ReadsItems.cons ((reads_num n r.startedAtMs).member hstart) hitems
    fun r => ⟨',', _, .inl rfl, rfl⟩
  have hitems := ReadsItems.cons
    ((reads_optionalText n false (r.peerKey.map fun k => hexChars k.val)).member hpeer) hitems
    fun r => ⟨_, rfl⟩
  have hitems := ReadsItems.cons ((reads_num n r.connectionId).member hid) hitems
    fun r => ⟨',', _, .inl rfl, rfl⟩
  refine (hitems.bracketed (by decide) (by decide)).congr (iff_true_intro ?_)
  have hhex : ∀ k ∈ r.peerKey, Clean false (hexChars k.val) :=
    fun k _ => (plainText_hexChars k.val).clean false
  have hlabel : ∀ t ∈ r.peakTier, Clean false t.asStr :=
    fun t _ => (plainText_asStr t).clean false
  simpa using ⟨hhex, hlabel⟩

/-- The members name the record. -/
theorem SessionRecord.fields_inj {r r' : SessionRecord} (h : r.fields = r'.fields) : r = r' := by
  obtain ⟨id, peer, start, ended, tier, total⟩ := r
  obtain ⟨id', peer', start', ended', tier', total'⟩ := r'
  simp only [fields, List.cons.injEq, Prod.mk.injEq, Value.num.injEq, true_and, and_true] at h
  obtain ⟨hid, hpeer, hstart, hended, htier, htotal⟩ := h
  obtain rfl : peer = peer' :=
    Option.map_injective (fun _ _ hk => Bytes.ext_val (hexChars_inj hk)) (optionalValue_inj hpeer)
  obtain rfl : tier = tier' := Option.map_injective asStr_injective (optionalValue_inj htier)
  rw [toDigits_inj hid, toDigits_inj hstart, optionalNum_inj hended, toDigits_inj htotal]

/-- The value of some records names them. -/
theorem recordsValue_injective : Function.Injective recordsValue := by
  intro records records' h
  have hmap : records.map (fun r => Value.obj r.fields) =
      records'.map fun r => Value.obj r.fields := by
    simpa [recordsValue] using h
  exact List.map_injective_iff.mpr
    (fun _ _ heq => SessionRecord.fields_inj (Value.obj.inj heq)) hmap

/-- The export of a store is read back. -/
theorem parse_exportJson (store : SessionRecordStore) :
    parse store.exportJson = some (recordsValue store.records) := by
  rw [exportJson_eq]
  exact (parse_tableText_iff (by simp [PlainText]) SessionRecord.reads_body store.records).mpr
    fun _ _ => trivial

/-- The export after any run of events of any sessions is a JSON document of the histories of the
sessions, in the order of their first openings; and two stores with one export have the same
records. -/
theorem export_history (es : List (ℕ × SessionEvent)) :
    parse (run QosSessionObserver.on .new es).store.exportJson =
        some (recordsValue ((QosSessionObserver.opened es).filterMap fun id =>
          QosSessionObserver.history id (QosSessionObserver.sinceOpen id es))) ∧
      ∀ store store' : SessionRecordStore,
        store.exportJson = store'.exportJson → store.records = store'.records := by
  constructor
  · rw [parse_exportJson, QosSessionObserver.records_eq_histories]
  · intro store store' h
    have hvalue := parse_exportJson store
    rw [h, parse_exportJson] at hvalue
    exact (recordsValue_injective (Option.some.inj hvalue)).symm

end LowBand.Messaging
