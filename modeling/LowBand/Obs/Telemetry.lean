import LowBand.Lib.Inet
import LowBand.Lib.Text
import LowBand.Messaging.Clipboard
import LowBand.Messaging.SessionExport
import Mathlib.Algebra.BigOperators.Group.List.Basic

/-!
# Telemetry

`telemetry.rs` adds the completed sessions of a store up and `sender.rs` posts the sums to an
endpoint, when the user has opted in. The sums have 64 bits and the counts 32, and they wrap as in a
release build. `send_blind` says what leaves the machine: at most one
request, only after the opt-in, whose body is a JSON document of the sums; and the sums are all it
depends on, so that neither the peers nor the session ids nor the order of the sessions nor those
still open can be told from it.

The network is a parameter: it takes an address and a request and gives a response or an error.
-/

namespace LowBand.Obs

open Lib Lib.Json Messaging

/-! ## The batch -/

/-- `TierCounts`. -/
structure TierCounts where
  /-- Sessions whose peak was `Survival`. -/
  survival : UInt32
  /-- Sessions whose peak was `Constrained`. -/
  constrained : UInt32
  /-- Sessions whose peak was `Comfortable`. -/
  comfortable : UInt32
  /-- Sessions whose peak was `Full`. -/
  full : UInt32
deriving DecidableEq

/-- One more session with this peak. -/
def TierCounts.add (counts : TierCounts) : Option Tier → TierCounts
  | some .survival => { counts with survival := counts.survival + 1 }
  | some .constrained => { counts with constrained := counts.constrained + 1 }
  | some .comfortable => { counts with comfortable := counts.comfortable + 1 }
  | some .full => { counts with full := counts.full + 1 }
  | none => counts

/-- `QosTelemetryBatch`. -/
structure QosTelemetryBatch where
  /-- The number of sessions. -/
  sessionCount : UInt32
  /-- Their bytes. -/
  totalBytesSum : UInt64
  /-- Their durations. -/
  durationSumMs : UInt64
  /-- Their peaks. -/
  peakTierCounts : TierCounts
deriving DecidableEq

namespace QosTelemetryBatch

/-- A record in the loop of `from_store`. -/
def addRecord (batch : QosTelemetryBatch) (r : SessionRecord) : QosTelemetryBatch :=
  match r.endedAtMs with
  | none => batch
  | some endedAt =>
    { sessionCount := batch.sessionCount + 1
      totalBytesSum := batch.totalBytesSum + .ofNat r.totalBytes
      durationSumMs := batch.durationSumMs + .ofNat (endedAt - r.startedAtMs)
      peakTierCounts := batch.peakTierCounts.add r.peakTier }

/-- `from_store`. -/
def fromStore (store : SessionRecordStore) : QosTelemetryBatch :=
  store.records.foldl addRecord ⟨0, 0, 0, ⟨0, 0, 0, 0⟩⟩

/-- `to_json`. -/
def toJson (batch : QosTelemetryBatch) : List Char :=
  "\x7b\"schema_version\":\"1\",\"session_count\":".toList ++
    Nat.toDigits 10 batch.sessionCount.toNat ++
    ",\"total_bytes_sum\":".toList ++ Nat.toDigits 10 batch.totalBytesSum.toNat ++
    ",\"duration_sum_ms\":".toList ++ Nat.toDigits 10 batch.durationSumMs.toNat ++
    ",\"peak_tier_counts\":\x7b\"survival\":".toList ++
    Nat.toDigits 10 batch.peakTierCounts.survival.toNat ++
    ",\"constrained\":".toList ++ Nat.toDigits 10 batch.peakTierCounts.constrained.toNat ++
    ",\"comfortable\":".toList ++ Nat.toDigits 10 batch.peakTierCounts.comfortable.toNat ++
    ",\"full\":".toList ++ Nat.toDigits 10 batch.peakTierCounts.full.toNat ++ "\x7d\x7d".toList

end QosTelemetryBatch

/-! ## The sender -/

/-- `QosTelemetryConfig`. -/
structure QosTelemetryConfig where
  /-- The user has opted in. -/
  enabled : Bool
  /-- Where the batch is posted. -/
  endpoint : List Char

/-- `QosTelemetryConfig::new`. -/
def QosTelemetryConfig.new (endpoint : List Char) : QosTelemetryConfig := ⟨false, endpoint⟩

/-- `with_opt_in`. -/
def QosTelemetryConfig.withOptIn (config : QosTelemetryConfig) : QosTelemetryConfig :=
  { config with enabled := true }

/-- `TelemetryError`. -/
inductive TelemetryError (ε : Type) where
  /-- The user has not opted in. -/
  | disabled
  /-- The endpoint is no `http` address. -/
  | invalidEndpoint (endpoint : List Char)
  /-- The response has no status. -/
  | parseError
  /-- The network failed. -/
  | io (e : ε)
  /-- The status is not a success. -/
  | httpError (code : ℕ)

/-- `parse_http_endpoint`. -/
def parseHttpEndpoint {ε : Type} (endpoint : List Char) :
    Except (TelemetryError ε) (List Char × ℕ × List Char) :=
  match endpoint.dropPrefix? "http://".toList with
  | none => .error (.invalidEndpoint endpoint)
  | some rest =>
    let (authority, path) :=
      match rest.findIdx? (· = '/') with
      | some slash => (rest.take slash, rest.drop slash)
      | none => (rest, "/".toList)
    -- the last colon, counted from the end
    match authority.reverse.findIdx? (· = ':') with
    | some i =>
      match fromStrRadix 10 (2 ^ 16) (authority.reverse.take i).reverse with
      | some port => .ok ((authority.reverse.drop (i + 1)).reverse, port, path)
      | none => .error (.invalidEndpoint endpoint)
    | none => .ok (authority, 80, path)

/-- `parse_status_code`. -/
def parseStatusCode {ε : Type} (response : List Char) : Except (TelemetryError ε) ℕ :=
  let line := (lines response).head?.getD []
  match (splitWhitespace isWhitespace line)[1]?.bind (fromStrRadix 10 (2 ^ 16)) with
  | some code => .ok code
  | none => .error .parseError

/-- The text of a request in front of its body. -/
def requestHead (host path : List Char) (len : ℕ) : List Char :=
  "POST ".toList ++ path ++ " HTTP/1.1\r\nHost: ".toList ++ host ++
    "\r\nContent-Type: application/json\r\nContent-Length: ".toList ++ Nat.toDigits 10 len ++
    "\r\nConnection: close\r\n\r\n".toList

/-- `send`, with the requests that were made. -/
def send {ε : Type} (net : List Char → List Char → Except ε (List Char))
    (config : QosTelemetryConfig) (batch : QosTelemetryBatch) :
    Except (TelemetryError ε) Unit × List (List Char × List Char) :=
  if !config.enabled then (.error .disabled, [])
  else
    match parseHttpEndpoint config.endpoint with
    | .error e => (.error e, [])
    | .ok (host, port, path) =>
      let body := batch.toJson
      let request := requestHead host path (strBytes (String.ofList body)).length ++ body
      let addr := host ++ ':' :: Nat.toDigits 10 port
      let result :=
        match net addr request with
        | .error e => .error (.io e)
        | .ok response =>
          match parseStatusCode response with
          | .error e => .error e
          | .ok status => if 200 ≤ status ∧ status < 300 then .ok () else .error (.httpError status)
      (result, [(addr, request)])

/-! ## The sums -/

/-- What a completed session adds to the sums: its bytes, its duration and its peak. -/
def contents (store : SessionRecordStore) : List (ℕ × ℕ × Option Tier) :=
  store.records.filterMap fun r =>
    r.endedAtMs.map fun endedAt => (r.totalBytes, endedAt - r.startedAtMs, r.peakTier)

/-- The number of the sessions with this peak. -/
def peaks (sessions : List (ℕ × ℕ × Option Tier)) (tier : Tier) : ℕ :=
  sessions.countP (·.2.2 = some tier)

/-- The sums over some sessions, in 64 bits, and the counts, in 32 bits. -/
def summary (sessions : List (ℕ × ℕ × Option Tier)) : QosTelemetryBatch where
  sessionCount := .ofNat sessions.length
  totalBytesSum := .ofNat (sessions.map (·.1)).sum
  durationSumMs := .ofNat (sessions.map (·.2.1)).sum
  peakTierCounts :=
    ⟨.ofNat (peaks sessions .survival), .ofNat (peaks sessions .constrained),
      .ofNat (peaks sessions .comfortable), .ofNat (peaks sessions .full)⟩

/-- The batch is the sums over the completed sessions. -/
theorem fromStore_eq (store : SessionRecordStore) :
    QosTelemetryBatch.fromStore store = summary (contents store) := by
  unfold QosTelemetryBatch.fromStore contents
  induction store.records using List.reverseRecOn with
  | nil => rfl
  | append_singleton records r ih =>
    rw [List.foldl_append, ih, List.filterMap_append]
    show QosTelemetryBatch.addRecord (summary _) r = summary (_ ++ _)
    generalize List.filterMap _ records = sessions
    unfold QosTelemetryBatch.addRecord
    cases hended : r.endedAtMs with
    | none => simp [hended]
    | some endedAt =>
      rcases htier : r.peakTier with _ | tier
      · simp [summary, peaks, hended, htier, TierCounts.add]
      · cases tier <;> simp [summary, peaks, hended, htier, TierCounts.add]

/-- The order of the sessions does not matter. -/
theorem summary_perm {sessions sessions' : List (ℕ × ℕ × Option Tier)}
    (h : sessions.Perm sessions') : summary sessions = summary sessions' := by
  unfold summary
  rw [h.length_eq, (h.map _).sum_eq, (h.map _).sum_eq]
  simp only [peaks, h.countP_eq]

/-! ## The document -/

/-- The members of the counts. -/
def TierCounts.fields (counts : TierCounts) : List (List Char × Value) :=
  [("survival".toList, .num (Nat.toDigits 10 counts.survival.toNat)),
    ("constrained".toList, .num (Nat.toDigits 10 counts.constrained.toNat)),
    ("comfortable".toList, .num (Nat.toDigits 10 counts.comfortable.toNat)),
    ("full".toList, .num (Nat.toDigits 10 counts.full.toNat))]

/-- The value of a batch. -/
def QosTelemetryBatch.value (batch : QosTelemetryBatch) : Value :=
  .obj [("schema_version".toList, .str "1".toList),
    ("session_count".toList, .num (Nat.toDigits 10 batch.sessionCount.toNat)),
    ("total_bytes_sum".toList, .num (Nat.toDigits 10 batch.totalBytesSum.toNat)),
    ("duration_sum_ms".toList, .num (Nat.toDigits 10 batch.durationSumMs.toNat)),
    ("peak_tier_counts".toList, .obj batch.peakTierCounts.fields)]

/-- The text of the counts behind the opening brace. -/
def TierCounts.body (counts : TierCounts) : List Char :=
  memberText "survival".toList (Nat.toDigits 10 counts.survival.toNat) ++ ',' ::
    (memberText "constrained".toList (Nat.toDigits 10 counts.constrained.toNat) ++ ',' ::
      (memberText "comfortable".toList (Nat.toDigits 10 counts.comfortable.toNat) ++ ',' ::
        (memberText "full".toList (Nat.toDigits 10 counts.full.toNat) ++ ['}'])))

/-- The text of a batch behind the opening brace. -/
def QosTelemetryBatch.body (batch : QosTelemetryBatch) : List Char :=
  memberText "schema_version".toList ('"' :: ("1".toList ++ ['"'])) ++ ',' ::
    (memberText "session_count".toList (Nat.toDigits 10 batch.sessionCount.toNat) ++ ',' ::
      (memberText "total_bytes_sum".toList (Nat.toDigits 10 batch.totalBytesSum.toNat) ++ ',' ::
        (memberText "duration_sum_ms".toList (Nat.toDigits 10 batch.durationSumMs.toNat) ++ ',' ::
          (memberText "peak_tier_counts".toList ('{' :: batch.peakTierCounts.body) ++ ['}']))))

/-- The counts as they are written behind the sums. -/
theorem TierCounts.text_eq (counts : TierCounts) :
    ",\"peak_tier_counts\":\x7b\"survival\":".toList ++ (Nat.toDigits 10 counts.survival.toNat ++
      (",\"constrained\":".toList ++ (Nat.toDigits 10 counts.constrained.toNat ++
        (",\"comfortable\":".toList ++ (Nat.toDigits 10 counts.comfortable.toNat ++
          (",\"full\":".toList ++ (Nat.toDigits 10 counts.full.toNat ++ "\x7d\x7d".toList))))))) =
      ',' :: (memberText "peak_tier_counts".toList ('{' :: counts.body) ++ ['}']) := by
  unfold TierCounts.body
  simp [memberText]

/-- The text of a batch. -/
theorem toJson_eq (batch : QosTelemetryBatch) : batch.toJson = '{' :: batch.body := by
  unfold QosTelemetryBatch.toJson QosTelemetryBatch.body
  simp only [List.append_assoc]
  rw [batch.peakTierCounts.text_eq]
  generalize memberText "peak_tier_counts".toList _ = counts
  simp [memberText]

/-- The counts are read back. -/
theorem TierCounts.reads_body (m : ℕ) (counts : TierCounts) :
    Reads (bracketed (readMember (readValue (m + 1))) '}') anyRest counts.body counts.fields
      True := by
  have hname : ∀ k ∈ counts.fields.map Prod.fst, PlainText k := by simp [fields, PlainText]
  simp only [fields, List.map_cons, List.map_nil, List.forall_mem_cons] at hname
  obtain ⟨hsurvival, hconstrained, hcomfortable, hfull, -⟩ := hname
  have hlast := ReadsItems.last ((reads_num m counts.full.toNat).member hfull)
    (by decide : isSpace '}' = false) (by decide) fun r => ⟨'}', r, .inr (.inr rfl), rfl⟩
  have hitems := ReadsItems.num counts.survival.toNat hsurvival
    (ReadsItems.num counts.constrained.toNat hconstrained
      (ReadsItems.num counts.comfortable.toNat hcomfortable hlast))
  exact hitems.bracketed (by decide) (by decide)

/-- A batch is read back. -/
theorem parse_toJson (batch : QosTelemetryBatch) : parse batch.toJson = some batch.value := by
  have hname : ∀ k ∈ ["schema_version".toList, "session_count".toList, "total_bytes_sum".toList,
      "duration_sum_ms".toList, "peak_tier_counts".toList], PlainText k := by simp [PlainText]
  simp only [List.forall_mem_cons] at hname
  obtain ⟨hversion, hcount, hbytes, hduration, hcounts, -⟩ := hname
  have hone : PlainText "1".toList := by simp [PlainText]
  have hbody : ∀ m, Reads (bracketed (readMember (readValue (m + 2))) '}') anyRest batch.body
      [("schema_version".toList, .str "1".toList),
        ("session_count".toList, .num (Nat.toDigits 10 batch.sessionCount.toNat)),
        ("total_bytes_sum".toList, .num (Nat.toDigits 10 batch.totalBytesSum.toNat)),
        ("duration_sum_ms".toList, .num (Nat.toDigits 10 batch.durationSumMs.toNat)),
        ("peak_tier_counts".toList, .obj batch.peakTierCounts.fields)] True := by
    intro m
    -- from the last member to the first, each in front of what follows it
    have hlast := ReadsItems.last ((batch.peakTierCounts.reads_body m).obj.member hcounts)
      (by decide : isSpace '}' = false) (by decide) fun _ => trivial
    have hsums := ReadsItems.num batch.sessionCount.toNat hcount
      (ReadsItems.num batch.totalBytesSum.toNat hbytes
        (ReadsItems.num batch.durationSumMs.toNat hduration hlast))
    have hitems := ReadsItems.cons ((reads_stringBody hone).str.member hversion) hsums
      fun _ => trivial
    exact (hitems.bracketed (by decide) (by decide)).congr (by simp)
  rw [toJson_eq]
  refine (Reads.parse_obj_iff ?_).mpr trivial
  -- the text is long enough for the depth of the counts
  obtain ⟨m, hm⟩ : ∃ m, batch.body.length + 1 = m + 2 := by
    refine ⟨batch.body.length - 1, ?_⟩
    have hpos : 0 < batch.body.length := by simp [QosTelemetryBatch.body, memberText]
    omega
  rw [hm]
  exact hbody m

/-- The length of the body is that of its bytes. -/
theorem length_toJson (batch : QosTelemetryBatch) :
    (strBytes (String.ofList batch.toJson)).length = batch.toJson.length := by
  have hdigits : ∀ n, ∀ c ∈ Nat.toDigits 10 n, c.toNat < 128 :=
    fun n c hc => (toNat_of_mem_toDigits hc).2.trans_lt (by decide)
  have hascii : ∀ c ∈ batch.toJson, c.toNat < 128 := by
    unfold QosTelemetryBatch.toJson
    simp only [List.forall_mem_append]
    simpa using ⟨⟨⟨⟨⟨⟨hdigits _, hdigits _⟩, hdigits _⟩, hdigits _⟩, hdigits _⟩, hdigits _⟩,
      hdigits _⟩
  rw [strBytes_ascii hascii, List.length_map]

/-- Whatever the network answers: nothing is sent without the opt-in, and else at most one request,
to the endpoint, whose body has the length that it announces and is a JSON document of the sums over
the completed sessions. All of it, and what comes of it, is the same for every store with the same
bytes, durations and peaks of completed sessions, in any order and whoever the peers were. -/
theorem send_blind {ε : Type} (net : List Char → List Char → Except ε (List Char))
    (config : QosTelemetryConfig) (store : SessionRecordStore) :
    let batch := QosTelemetryBatch.fromStore store
    ((send net config batch).2 = [] ∨
      config.enabled = true ∧ ∃ host port path body,
        @parseHttpEndpoint ε config.endpoint = .ok (host, port, path) ∧
        (send net config batch).2 = [(host ++ ':' :: Nat.toDigits 10 port,
          requestHead host path body.length ++ body)] ∧
        parse body = some (summary (contents store)).value) ∧
      ∀ store' : SessionRecordStore, (contents store').Perm (contents store) →
        send net config (QosTelemetryBatch.fromStore store') = send net config batch := by
  constructor
  · unfold send
    by_cases henabled : config.enabled = true
    · rw [if_neg (by simp [henabled])]
      cases hendpoint : @parseHttpEndpoint ε config.endpoint with
      | error e => exact .inl rfl
      | ok target =>
        obtain ⟨host, port, path⟩ := target
        refine .inr ⟨henabled, host, port, path,
          (QosTelemetryBatch.fromStore store).toJson, rfl, ?_, ?_⟩
        · dsimp only
          rw [length_toJson]
        · rw [parse_toJson, fromStore_eq]
    -- Switched off, nothing is sent.
    · rw [if_pos (by simp [henabled])]
      exact .inl rfl
  -- The batch is made of sums, which do not depend on the order.
  · intro store' hperm
    rw [fromStore_eq, fromStore_eq, summary_perm hperm]

end LowBand.Obs
