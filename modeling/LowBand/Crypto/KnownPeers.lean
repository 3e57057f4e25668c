import LowBand.Lib.JsonParser

/-!
# The store of known peers and its export

`known_peers.rs` keeps a row for each static public key that a handshake brought, with an optional
label of at most 120 bytes (`utf8Len_truncateTo120Bytes_le`).

`export_json` writes the rows as JSON. Keys and numbers need no escapes.
Of a label only the quotes are escaped, so the export has the label as its value exactly when the
label has no backslash and no control character (`KnownPeerStore.parse_exportJson_iff`): a backslash
is taken for the start of an escape, and a label that ends with one takes the closing quote with it.

Strings are their characters.
-/

namespace LowBand.Crypto

open Lib Lib.Json

/-! ## The store -/

/-- `KnownPeer`. -/
structure KnownPeer where
  /-- The id. -/
  id : UInt64
  /-- The static public key. -/
  staticPubkey : Bytes 32
  /-- The label that the user gave. -/
  displayLabel : Option (List Char)
  /-- Milliseconds since the epoch when the peer was first seen. -/
  firstSeenAtMs : UInt64
  /-- Milliseconds since the epoch when the peer was last seen. -/
  lastSeenAtMs : UInt64

/-- A peer that `upsert` sees again: the time of the last contact never goes back. -/
def KnownPeer.seenAgain (p : KnownPeer) (nowMs : UInt64) : KnownPeer :=
  { p with lastSeenAtMs := if p.lastSeenAtMs < nowMs then nowMs else p.lastSeenAtMs }

/-- `KnownPeerStore`. -/
structure KnownPeerStore where
  /-- The peers in the order of their first contacts. -/
  peers : List KnownPeer
  /-- The id of the next peer. -/
  nextId : UInt64

/-- The number of bytes of a string. -/
def utf8Len (s : List Char) : ℕ := (s.map Char.utf8Size).sum

/-- `is_char_boundary`. -/
def isCharBoundary (s : List Char) (i : ℕ) : Bool := s.inits.any fun p => utf8Len p = i

/-- The loop of `truncate_to_120_bytes`: the last boundary at or before `end`. -/
def boundaryFrom (s : List Char) : ℕ → ℕ
  | 0 => 0
  | n + 1 => if isCharBoundary s (n + 1) then n + 1 else boundaryFrom s n

/-- The first `n` bytes of a string, for a boundary. -/
def sliceTo : ℕ → List Char → List Char
  | _, [] => []
  | n, c :: s => if c.utf8Size ≤ n then c :: sliceTo (n - c.utf8Size) s else []

/-- `truncate_to_120_bytes`. -/
def truncateTo120Bytes (s : List Char) : List Char :=
  if utf8Len s ≤ 120 then s else sliceTo (boundaryFrom s 120) s

/-- A peer that `set_label` labels. -/
def KnownPeer.withLabel (p : KnownPeer) (label : List Char) : KnownPeer :=
  { p with displayLabel := some (truncateTo120Bytes label) }

namespace KnownPeerStore

/-- `new`. -/
def new : KnownPeerStore := ⟨[], 1⟩

/-- `find_by_key`. -/
def findByKey (store : KnownPeerStore) (staticPubkey : Bytes 32) : Option KnownPeer :=
  store.peers.find? (·.staticPubkey = staticPubkey)

/-- `get`. -/
def get (store : KnownPeerStore) (id : UInt64) : Option KnownPeer := store.peers.find? (·.id = id)

/-- `upsert`. -/
def upsert (store : KnownPeerStore) (staticPubkey : Bytes 32) (nowMs : UInt64) :
    UInt64 × KnownPeerStore :=
  match store.findByKey staticPubkey with
  | some p =>
    let i := store.peers.findIdx (·.staticPubkey = staticPubkey)
    (p.id, { store with peers := store.peers.modify i (·.seenAgain nowMs) })
  | none =>
    let id := store.nextId
    (id, ⟨store.peers ++ [⟨id, staticPubkey, none, nowMs, nowMs⟩], id + 1⟩)

/-- `set_label`. -/
def setLabel (store : KnownPeerStore) (id : UInt64) (label : List Char) : Bool × KnownPeerStore :=
  match store.peers.findIdx? (·.id = id) with
  | none => (false, store)
  | some i =>
    (true, { store with peers := store.peers.modify i (·.withLabel label) })

end KnownPeerStore

/-! ## Labels and calls -/

/-- A boundary that is searched from a byte is not behind it. -/
theorem boundaryFrom_le (s : List Char) (n : ℕ) : boundaryFrom s n ≤ n := by
  induction n with
  | zero => exact le_rfl
  | succ n ih =>
    rw [boundaryFrom]
    split
    · exact le_rfl
    · exact ih.trans n.le_succ

/-- A slice is no longer than its end. -/
theorem utf8Len_sliceTo_le (n : ℕ) (s : List Char) : utf8Len (sliceTo n s) ≤ n := by
  induction s generalizing n with
  | nil => exact Nat.zero_le n
  | cons c s ih =>
    rw [sliceTo]
    split
    · next hle =>
      have hrest := ih (n - c.utf8Size)
      simp only [utf8Len, List.map_cons, List.sum_cons] at hrest ⊢
      omega
    · exact Nat.zero_le n

/-- A label fits its column. -/
theorem utf8Len_truncateTo120Bytes_le (s : List Char) : utf8Len (truncateTo120Bytes s) ≤ 120 := by
  unfold truncateTo120Bytes
  split
  · assumption
  · exact (utf8Len_sliceTo_le _ s).trans (boundaryFrom_le s 120)

namespace KnownPeerStore

/-- A call that changes a store. -/
inductive Call where
  | upsert (staticPubkey : Bytes 32) (nowMs : UInt64)
  | setLabel (id : UInt64) (label : List Char)

/-- The store after a call. -/
def call (store : KnownPeerStore) : Call → KnownPeerStore
  | .upsert staticPubkey nowMs => (store.upsert staticPubkey nowMs).2
  | .setLabel id label => (store.setLabel id label).2

end KnownPeerStore

/-! ## The export -/

/-- `peer_to_json`; `replace` puts a backslash in front of each quote of the label. -/
def peerToJson (p : KnownPeer) : List Char :=
  let hex := hexChars p.staticPubkey.val
  let labelField := match p.displayLabel with
    -- a backslash in the label stays as it is
    | some l => '"' :: (rawText true l ++ ['"'])
    | none => "null".toList
  "\x7b\"id\":".toList ++ Nat.toDigits 10 p.id.toNat ++ ",\"static_pubkey\":\"".toList ++ hex ++
    "\",\"display_label\":".toList ++ labelField ++ ",\"first_seen_at_ms\":".toList ++
    Nat.toDigits 10 p.firstSeenAtMs.toNat ++ ",\"last_seen_at_ms\":".toList ++
    Nat.toDigits 10 p.lastSeenAtMs.toNat ++ "\x7d".toList

/-- `export_json`. -/
def KnownPeerStore.exportJson (store : KnownPeerStore) : List Char :=
  store.peers.zipIdx.foldl
      (fun buf x => (if 0 < x.2 then buf ++ [','] else buf) ++ peerToJson x.1)
      "\x7b\"known_peers\":[".toList ++
    "]\x7d".toList

/-! ## What a parser reads of it -/

/-- The members of a peer. -/
def KnownPeer.fields (p : KnownPeer) : List (List Char × Value) :=
  [("id".toList, .num (Nat.toDigits 10 p.id.toNat)),
    ("static_pubkey".toList, .str (hexChars p.staticPubkey.val)),
    ("display_label".toList, optionalValue p.displayLabel),
    ("first_seen_at_ms".toList, .num (Nat.toDigits 10 p.firstSeenAtMs.toNat)),
    ("last_seen_at_ms".toList, .num (Nat.toDigits 10 p.lastSeenAtMs.toNat))]

/-- The value that the export stands for. -/
def KnownPeerStore.value (store : KnownPeerStore) : Value :=
  .obj [("known_peers".toList, .arr (store.peers.map fun p => .obj p.fields))]

/-- A label without backslashes and control characters. -/
def KnownPeer.PlainLabel (p : KnownPeer) : Prop := ∀ l ∈ p.displayLabel, Clean true l

/-- The text of a peer behind its opening brace. -/
def KnownPeer.body (p : KnownPeer) : List Char :=
  memberText "id".toList (Nat.toDigits 10 p.id.toNat) ++ ',' ::
    (memberText "static_pubkey".toList ('"' :: (hexChars p.staticPubkey.val ++ ['"'])) ++ ',' ::
      (memberText "display_label".toList (optionalText true p.displayLabel) ++ ',' ::
        (memberText "first_seen_at_ms".toList (Nat.toDigits 10 p.firstSeenAtMs.toNat) ++ ',' ::
          (memberText "last_seen_at_ms".toList (Nat.toDigits 10 p.lastSeenAtMs.toNat) ++ ['}']))))

/-- The text of a peer is its opening brace and its body. -/
theorem peerToJson_eq (p : KnownPeer) : peerToJson p = '{' :: p.body := by
  unfold peerToJson KnownPeer.body optionalText
  generalize Nat.toDigits 10 p.id.toNat = id, hexChars p.staticPubkey.val = hex,
    Nat.toDigits 10 p.firstSeenAtMs.toNat = first, Nat.toDigits 10 p.lastSeenAtMs.toNat = last
  cases p.displayLabel <;> simp [memberText]

/-- The export is a table with one row for each peer. -/
theorem KnownPeerStore.exportJson_eq (store : KnownPeerStore) :
    store.exportJson = tableText "known_peers".toList (store.peers.map KnownPeer.body) := by
  have hpeers : store.peers.map peerToJson = (store.peers.map KnownPeer.body).map ('{' :: ·) := by
    rw [List.map_map]
    exact List.map_congr_left fun p _ => peerToJson_eq p
  rw [KnownPeerStore.exportJson, foldl_zipIdx_join, hpeers]
  simp [tableText, memberText]

/-- A peer is read back exactly when its label is plain. -/
theorem KnownPeer.reads_body (n : ℕ) (p : KnownPeer) :
    Reads (bracketed (readMember (readValue (n + 1))) '}') anyRest p.body p.fields
      p.PlainLabel := by
  have hname : ∀ k ∈ p.fields.map Prod.fst, PlainText k := by simp [fields, PlainText]
  simp only [fields, List.map_cons, List.map_nil, List.forall_mem_cons] at hname
  obtain ⟨hid, hkey, hlabel, hfirst, hlast, -⟩ := hname
  -- from the last member to the first, each in front of what follows it
  have hitems := ReadsItems.last ((reads_num n p.lastSeenAtMs.toNat).member hlast)
    (by decide : isSpace '}' = false) (by decide) fun r => ⟨'}', r, .inr (.inr rfl), rfl⟩
  have hitems := ReadsItems.cons ((reads_num n p.firstSeenAtMs.toNat).member hfirst) hitems
    fun r => ⟨',', _, .inl rfl, rfl⟩
  have hitems := ReadsItems.cons ((reads_optionalText n true p.displayLabel).member hlabel) hitems
    fun r => ⟨_, rfl⟩
  have hitems := ReadsItems.cons
    ((reads_stringBody (plainText_hexChars p.staticPubkey.val)).str.member hkey) hitems
    fun _ => trivial
  have hitems := ReadsItems.cons ((reads_num n p.id.toNat).member hid) hitems
    fun r => ⟨',', _, .inl rfl, rfl⟩
  exact (hitems.bracketed (by decide) (by decide)).congr (by simp [PlainLabel])

/-- The members name the peer. -/
theorem KnownPeer.fields_inj {p p' : KnownPeer} (h : p.fields = p'.fields) : p = p' := by
  obtain ⟨id, key, label, first, last⟩ := p
  obtain ⟨id', key', label', first', last'⟩ := p'
  simp only [fields, List.cons.injEq, Prod.mk.injEq, Value.num.injEq, Value.str.injEq, true_and,
    and_true] at h
  obtain ⟨hid, hkey, hlabel, hfirst, hlast⟩ := h
  have hnum : ∀ x y : UInt64, Nat.toDigits 10 x.toNat = Nat.toDigits 10 y.toNat → x = y :=
    fun x y hxy => UInt64.toNat_inj.mp (toDigits_inj hxy)
  rw [hnum _ _ hid, Bytes.ext_val (hexChars_inj hkey), optionalValue_inj hlabel, hnum _ _ hfirst,
    hnum _ _ hlast]

/-- The value of a store names its peers. -/
theorem KnownPeerStore.value_inj {store store' : KnownPeerStore}
    (h : store.value = store'.value) : store.peers = store'.peers := by
  simp only [value, Value.obj.injEq, List.cons.injEq, Prod.mk.injEq, Value.arr.injEq, true_and,
    and_true] at h
  refine List.map_injective_iff.mpr (fun p p' hp => ?_) h
  exact KnownPeer.fields_inj (Value.obj.inj hp)

/-- The export of a store is read back exactly when all labels are plain. -/
theorem KnownPeerStore.parse_exportJson_iff (store : KnownPeerStore) :
    parse store.exportJson = some store.value ↔ ∀ p ∈ store.peers, p.PlainLabel := by
  rw [exportJson_eq]
  exact parse_tableText_iff (by simp [PlainText]) KnownPeer.reads_body store.peers

/-- The exports of some stores are faithful exactly when all labels are plain. -/
theorem KnownPeerStore.faithful_iff {stores : Set KnownPeerStore} :
    Faithful KnownPeerStore.exportJson parse KnownPeerStore.value KnownPeerStore.peers stores ↔
      ∀ store ∈ stores, ∀ p ∈ store.peers, p.PlainLabel := by
  have hvalue : ∀ store ∈ stores, ∀ store' ∈ stores,
      KnownPeerStore.value store = KnownPeerStore.value store' → store.peers = store'.peers :=
    fun _ _ _ _ => value_inj
  rw [Json.faithful_iff hvalue]
  exact forall₂_congr fun store _ => parse_exportJson_iff store

end LowBand.Crypto
