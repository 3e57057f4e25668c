import LowBand.Crypto.KnownPeers
import Mathlib.Data.List.Infix
import Mathlib.Data.List.Nodup

/-!
# Runs of the store of known peers

What the store of `known_peers.rs` holds after any calls of `upsert` and `set_label`.

A call does to each row the same whatever the other rows are (`KnownPeer.after`), and `upsert` of an
unknown key adds one row (`peers_call`). So a row is its first contact followed by the calls since
then (`IsHistory`), which gives its times and its label, and the ids are the numbers from one on in
the order of the first contacts. They cannot wrap around: `Vec::push` panics long before
(`maxPeers`).
-/

namespace LowBand.Crypto

open Lib

/-! ## Labels -/

/-- The longest prefix of a text that is valid UTF-8 and has at most 120 bytes. -/
structure IsLongestPrefix (s p : List Char) : Prop where
  /-- The bytes are a front part of those of the text. -/
  isPrefix : ∃ rest, p.utf8Encode ++ rest = s.utf8Encode
  /-- They are at most 120. -/
  size_le : p.utf8Encode.size ≤ 120
  /-- A valid front part of at most 120 bytes is not longer. -/
  longest : ∀ b rest : ByteArray, b ++ rest = s.utf8Encode → b.IsValidUTF8 → b.size ≤ 120 →
    b.size ≤ p.utf8Encode.size

/-- The bytes of a string are as many as its characters need. -/
theorem size_utf8Encode (s : List Char) : s.utf8Encode.size = utf8Len s := by
  induction s with
  | nil => rfl
  | cons c s ih =>
    rw [List.utf8Encode_cons, ByteArray.size_append, List.utf8Encode_singleton,
      List.size_toByteArray, String.length_utf8EncodeChar, ih, utf8Len, utf8Len, List.map_cons,
      List.sum_cons]

/-- The bytes of two texts add up. -/
theorem utf8Len_append (s t : List Char) : utf8Len (s ++ t) = utf8Len s + utf8Len t := by
  simp [utf8Len]

/-- The boundaries are the lengths of the front parts. -/
theorem isCharBoundary_iff {s : List Char} {i : ℕ} :
    isCharBoundary s i ↔ ∃ p, p <+: s ∧ utf8Len p = i := by
  simp only [isCharBoundary, List.any_eq_true, List.mem_inits, decide_eq_true_eq]

/-- The loop ends at a boundary. -/
theorem isCharBoundary_boundaryFrom (s : List Char) (n : ℕ) :
    isCharBoundary s (boundaryFrom s n) := by
  induction n with
  | zero => exact isCharBoundary_iff.mpr ⟨[], List.nil_prefix, rfl⟩
  | succ n ih =>
    rw [boundaryFrom]
    split
    · assumption
    · exact ih

/-- No boundary is passed over. -/
theorem le_boundaryFrom {s : List Char} {i n : ℕ} (hi : isCharBoundary s i) (hle : i ≤ n) :
    i ≤ boundaryFrom s n := by
  induction n with
  | zero => exact hle
  | succ n ih =>
    rw [boundaryFrom]
    split
    · exact hle
    · next hnot =>
      have hne : i ≠ n + 1 := by
        rintro rfl
        exact hnot hi
      exact ih (by omega)

/-- The slice to the end of a front part is that front part. -/
theorem sliceTo_utf8Len {p s : List Char} (h : p <+: s) : sliceTo (utf8Len p) s = p := by
  induction p generalizing s with
  | nil =>
    cases s with
    | nil => rfl
    | cons c s =>
      have hpos := c.utf8Size_pos
      rw [sliceTo, if_neg (by simp only [utf8Len, List.map_nil, List.sum_nil]; omega)]
  | cons c p ih =>
    obtain ⟨t, rfl⟩ := h
    have hlen : utf8Len (c :: p) = c.utf8Size + utf8Len p := by simp [utf8Len]
    rw [List.cons_append, sliceTo, hlen, if_pos (by omega), Nat.add_sub_cancel_left,
      ih (List.prefix_append p t)]

/-- What `truncate_to_120_bytes` keeps. -/
theorem isLongestPrefix_truncateTo120Bytes (s : List Char) :
    IsLongestPrefix s (truncateTo120Bytes s) := by
  have hsize := utf8Len_truncateTo120Bytes_le s
  -- Among the prefixes by characters it is the longest one.
  have hmax : truncateTo120Bytes s <+: s ∧
      ∀ q, q <+: s → utf8Len q ≤ 120 → utf8Len q ≤ utf8Len (truncateTo120Bytes s) := by
    unfold truncateTo120Bytes
    split
    · refine ⟨List.prefix_rfl, fun q hq _ => ?_⟩
      obtain ⟨t, rfl⟩ := hq
      rw [utf8Len_append]
      exact Nat.le_add_right _ _
    · obtain ⟨p, hp, hlen⟩ := isCharBoundary_iff.mp (isCharBoundary_boundaryFrom s 120)
      rw [← hlen, sliceTo_utf8Len hp, hlen]
      exact ⟨hp, fun q hq hle => le_boundaryFrom (isCharBoundary_iff.mpr ⟨q, hq, rfl⟩) hle⟩
  obtain ⟨⟨t, ht⟩, hmax⟩ := hmax
  refine ⟨⟨t.utf8Encode, ?_⟩, by rwa [size_utf8Encode], ?_⟩
  · rw [← List.utf8Encode_append, ht]
  -- A valid front part of the bytes is such a prefix.
  · rintro b rest hb ⟨q, rfl⟩ hle
    rw [size_utf8Encode] at hle ⊢
    rw [size_utf8Encode]
    exact hmax q (List.isPrefix_of_utf8Encode_append_eq_utf8Encode rest hb) hle

/-! ## One call -/

namespace KnownPeer

/-- What a call does to a row. -/
def after (p : KnownPeer) : KnownPeerStore.Call → KnownPeer
  | .upsert staticPubkey nowMs => if p.staticPubkey = staticPubkey then p.seenAgain nowMs else p
  | .setLabel id label => if p.id = id then p.withLabel label else p

/-- The row of a first contact. -/
def firstContact (id : UInt64) (staticPubkey : Bytes 32) (nowMs : UInt64) : KnownPeer :=
  ⟨id, staticPubkey, none, nowMs, nowMs⟩

/-- A call keeps the id of a row. -/
@[simp]
theorem id_after (p : KnownPeer) (c : KnownPeerStore.Call) : (p.after c).id = p.id := by
  cases c <;> simp only [after] <;> split <;> rfl

/-- A call keeps the key of a row. -/
@[simp]
theorem staticPubkey_after (p : KnownPeer) (c : KnownPeerStore.Call) :
    (p.after c).staticPubkey = p.staticPubkey := by
  cases c <;> simp only [after] <;> split <;> rfl

/-- A call keeps the time of the first contact. -/
@[simp]
theorem firstSeenAtMs_after (p : KnownPeer) (c : KnownPeerStore.Call) :
    (p.after c).firstSeenAtMs = p.firstSeenAtMs := by
  cases c <;> simp only [after] <;> split <;> rfl

/-- A call never sets the time of the last contact back. -/
theorem lastSeenAtMs_le_after (p : KnownPeer) (c : KnownPeerStore.Call) :
    p.lastSeenAtMs ≤ (p.after c).lastSeenAtMs := by
  cases c with
  | upsert staticPubkey nowMs =>
    simp only [after]
    split
    · simp only [seenAgain]
      split
      · next hlt => exact UInt64.le_of_lt hlt
      · exact UInt64.le_refl _
    · exact UInt64.le_refl _
  | setLabel id label =>
    simp only [after]
    split <;> exact UInt64.le_refl _

end KnownPeer

/-- Modifying the one element with a value is modifying every element with it. -/
theorem modify_eq_map {α β : Type} [DecidableEq β] {g : α → β} {l : List α}
    (h : (l.map g).Nodup) {i : ℕ} {b : β} (hi : (l.map g)[i]? = some b) (f : α → α) :
    l.modify i f = l.map fun a => if g a = b then f a else a := by
  apply List.ext_getElem
  · simp
  · intro k hk hk'
    rw [List.length_modify] at hk
    rw [List.getElem_modify, List.getElem_map]
    have hgk : (l.map g)[k]? = some (g l[k]) := by simp [hk]
    by_cases hik : i = k
    · subst hik
      rw [hi] at hgk
      rw [if_pos rfl, if_pos (Option.some.inj hgk).symm]
    · have hne : g l[k] ≠ b := by
        rintro rfl
        exact hik ((List.getElem?_inj (by simpa using hk) h).mp (hgk.trans hi.symm)).symm
      rw [if_neg hik, if_neg hne]

namespace KnownPeerStore

variable {store : KnownPeerStore}

/-- The row that a call adds: the first contact of an unknown key. -/
def added (store : KnownPeerStore) : Call → List KnownPeer
  | .upsert staticPubkey nowMs =>
    if staticPubkey ∈ store.peers.map KnownPeer.staticPubkey then []
    else [.firstContact store.nextId staticPubkey nowMs]
  | .setLabel _ _ => []

/-- A call does its part to each row and may add one. -/
theorem peers_call (hkeys : (store.peers.map KnownPeer.staticPubkey).Nodup)
    (hids : (store.peers.map KnownPeer.id).Nodup) (c : Call) :
    (store.call c).peers = store.peers.map (·.after c) ++ store.added c := by
  cases c with
  -- The index that is modified is that of the one row with this key.
  | upsert staticPubkey nowMs =>
    rw [call, upsert, added]
    cases hfind : store.findByKey staticPubkey with
    | some p =>
      have hp := List.mem_of_find?_eq_some hfind
      have hkey : p.staticPubkey = staticPubkey := by
        have hdecide := List.find?_some hfind
        exact of_decide_eq_true hdecide
      have hlt : store.peers.findIdx (·.staticPubkey = staticPubkey) < store.peers.length :=
        List.findIdx_lt_length_of_exists ⟨p, hp, decide_eq_true hkey⟩
      have hat : (store.peers.map KnownPeer.staticPubkey)[
          store.peers.findIdx (·.staticPubkey = staticPubkey)]? = some staticPubkey := by
        rw [List.getElem?_map, List.getElem?_eq_getElem hlt, Option.map_some]
        exact congrArg some (of_decide_eq_true (List.findIdx_getElem (w := hlt)))
      rw [if_pos (hkey ▸ List.mem_map_of_mem hp), List.append_nil]
      exact modify_eq_map hkeys hat _
    | none =>
      have hnew : ∀ p ∈ store.peers, p.staticPubkey ≠ staticPubkey := by
        intro p hp heq
        exact List.find?_eq_none.mp hfind p hp (decide_eq_true heq)
      have hsame : store.peers.map (·.after (.upsert staticPubkey nowMs)) = store.peers :=
        (List.map_congr_left fun p hp => if_neg (hnew p hp)).trans (List.map_id _)
      rw [if_neg (by simpa using hnew), hsame]
      rfl
  -- Likewise for the one row with this id.
  | setLabel id label =>
    rw [call, setLabel, added, List.append_nil]
    cases hfind : store.peers.findIdx? (·.id = id) with
    | some i =>
      obtain ⟨hlt, hid, -⟩ := List.findIdx?_eq_some_iff_getElem.mp hfind
      have hat : (store.peers.map KnownPeer.id)[i]? = some id := by
        rw [List.getElem?_map, List.getElem?_eq_getElem hlt, Option.map_some]
        exact congrArg some (of_decide_eq_true hid)
      exact modify_eq_map hids hat _
    | none =>
      have hnew : ∀ p ∈ store.peers, p.id ≠ id := by
        intro p hp
        exact of_decide_eq_false (List.findIdx?_eq_none_iff.mp hfind p hp)
      exact ((List.map_congr_left fun p hp => if_neg (hnew p hp)).trans (List.map_id _)).symm

/-! ## Runs -/

/-- The peers that fit in the `isize::MAX` bytes of a vector, of 80 bytes each. -/
def maxPeers : ℕ := (2 ^ 63 - 1) / 80

/-- A call; `push` panics when the vector is at its limit. -/
def callOrPanic (store : KnownPeerStore) (c : Call) : Option KnownPeerStore :=
  if (store.call c).peers.length ≤ maxPeers then some (store.call c) else none

/-- The store after calls, if none panics. -/
def run (calls : List Call) : Option KnownPeerStore := calls.foldlM callOrPanic new

/-- A run with one more call. -/
theorem run_append_singleton (calls : List Call) (c : Call) :
    run (calls ++ [c]) = (run calls).bind (callOrPanic · c) := by
  rw [run, List.foldlM_append, run]
  cases calls.foldlM callOrPanic new with
  | none => rfl
  | some store => simp

/-- The calls contain a contact with a key. -/
def Contacted (calls : List Call) (staticPubkey : Bytes 32) : Prop :=
  ∃ nowMs, .upsert staticPubkey nowMs ∈ calls

/-- A row is the first contact with its key and what the calls since then did to it. -/
def IsHistory (calls : List Call) (p : KnownPeer) : Prop :=
  ∃ before nowMs later, calls = before ++ .upsert p.staticPubkey nowMs :: later ∧
    ¬ Contacted before p.staticPubkey ∧
    p = later.foldl KnownPeer.after (.firstContact p.id p.staticPubkey nowMs)

/-- What holds of the store after calls. -/
structure Tracks (calls : List Call) (store : KnownPeerStore) : Prop where
  /-- Each key has one row. -/
  nodup_keys : (store.peers.map KnownPeer.staticPubkey).Nodup
  /-- The keys are those of the contacts. -/
  mem_keys : ∀ key, key ∈ store.peers.map KnownPeer.staticPubkey ↔ Contacted calls key
  /-- The ids are the numbers from one on. -/
  ids : store.peers.map (·.id.toNat) = List.range' 1 store.peers.length
  /-- The next id is the next number. -/
  nextId : store.nextId.toNat = store.peers.length + 1
  /-- The rows fit in a vector. -/
  length_le : store.peers.length ≤ maxPeers
  /-- The rows are their histories. -/
  history : ∀ p ∈ store.peers, IsHistory calls p

variable {calls : List Call} {c : Call}

/-- The ids differ. -/
theorem Tracks.nodup_ids (h : Tracks calls store) : (store.peers.map KnownPeer.id).Nodup := by
  refine List.Nodup.of_map UInt64.toNat ?_
  rw [List.map_map]
  exact (congrArg List.Nodup h.ids).mpr List.nodup_range'

/-- A new store has seen no calls. -/
theorem Tracks.new : Tracks [] new := by
  refine ⟨List.nodup_nil, fun key => ?_, rfl, rfl, Nat.zero_le _, nofun⟩
  simp [KnownPeerStore.new, Contacted]

/-- A call adds no row, or it is the first contact with a key. -/
theorem added_cases (store : KnownPeerStore) (c : Call) :
    (store.added c = [] ∧ (store.call c).nextId = store.nextId ∧
      ∀ key nowMs, c = .upsert key nowMs → key ∈ store.peers.map KnownPeer.staticPubkey) ∨
    ∃ key nowMs, c = .upsert key nowMs ∧ key ∉ store.peers.map KnownPeer.staticPubkey ∧
      store.added c = [.firstContact store.nextId key nowMs] ∧
      (store.call c).nextId = store.nextId + 1 := by
  cases c with
  | upsert staticPubkey nowMs =>
    -- Whether the key is known decides it.
    by_cases hkey : staticPubkey ∈ store.peers.map KnownPeer.staticPubkey
    · refine .inl ⟨if_pos hkey, ?_, fun key _ h => (Call.upsert.inj h).1 ▸ hkey⟩
      rw [KnownPeerStore.call, upsert]
      cases hfind : store.findByKey staticPubkey with
      | some p => rfl
      | none =>
        obtain ⟨p, hp, heq⟩ := List.mem_map.mp hkey
        exact absurd (decide_eq_true heq) (List.find?_eq_none.mp hfind p hp)
    · refine .inr ⟨staticPubkey, nowMs, rfl, hkey, if_neg hkey, ?_⟩
      have hfind : store.findByKey staticPubkey = none := by
        rw [findByKey, List.find?_eq_none]
        intro p hp heq
        exact hkey (of_decide_eq_true heq ▸ List.mem_map_of_mem hp)
      rw [KnownPeerStore.call, upsert, hfind]
  | setLabel id label =>
    refine .inl ⟨rfl, ?_, nofun⟩
    rw [KnownPeerStore.call, setLabel]
    cases store.peers.findIdx? (·.id = id) <;> rfl

/-- A contact is one of those before or the last call. -/
theorem contacted_append_singleton {key : Bytes 32} :
    Contacted (calls ++ [c]) key ↔ Contacted calls key ∨ ∃ nowMs, c = .upsert key nowMs := by
  simp only [Contacted, List.mem_append, List.mem_singleton, exists_or, eq_comm (a := c)]

/-- A row goes on with its history. -/
theorem IsHistory.append_singleton {p : KnownPeer} (h : IsHistory calls p) (c : Call) :
    IsHistory (calls ++ [c]) (p.after c) := by
  obtain ⟨before, nowMs, later, hcalls, hfirst, hp⟩ := h
  refine ⟨before, nowMs, later ++ [c], ?_, ?_, ?_⟩
  · rw [hcalls, KnownPeer.staticPubkey_after, List.append_assoc, List.cons_append]
  · rwa [KnownPeer.staticPubkey_after]
  · rw [KnownPeer.id_after, KnownPeer.staticPubkey_after, List.foldl_append, ← hp]
    rfl

/-- The keys after a call, whether the vector has room or not. -/
theorem Tracks.keys_call (h : Tracks calls store) (c : Call) :
    ((store.call c).peers.map KnownPeer.staticPubkey).Nodup ∧
      ∀ key, key ∈ (store.call c).peers.map KnownPeer.staticPubkey ↔
        Contacted (calls ++ [c]) key := by
  have hkeys : (store.call c).peers.map KnownPeer.staticPubkey =
      store.peers.map KnownPeer.staticPubkey ++ (store.added c).map KnownPeer.staticPubkey := by
    rw [peers_call h.nodup_keys h.nodup_ids c]
    simp
  rw [hkeys]
  -- Either no row is added, or one with a new key.
  rcases added_cases store c with ⟨hadded, -, hknown⟩ | ⟨key, nowMs, rfl, hkey, hadded, -⟩
  · rw [hadded, List.map_nil, List.append_nil]
    refine ⟨h.nodup_keys, fun key => ?_⟩
    rw [contacted_append_singleton, ← h.mem_keys key]
    exact ⟨.inl, fun hor => hor.elim id fun ⟨nowMs, hc⟩ => hknown key nowMs hc⟩
  · have hmap : (store.added (.upsert key nowMs)).map KnownPeer.staticPubkey = [key] := by
      rw [hadded]
      rfl
    rw [hmap]
    refine ⟨h.nodup_keys.append (List.nodup_singleton key) (by simpa using hkey), fun k => ?_⟩
    rw [List.mem_append, contacted_append_singleton, ← h.mem_keys k]
    simp [eq_comm]

/-- A call that does not panic. -/
theorem Tracks.call (h : Tracks calls store) (c : Call)
    (hlen : (store.call c).peers.length ≤ maxPeers) :
    Tracks (calls ++ [c]) (store.call c) := by
  have hpeers := peers_call h.nodup_keys h.nodup_ids c
  obtain ⟨hnodup, hmem⟩ := h.keys_call c
  have hids : (store.peers.map (·.after c)).map (·.id.toNat) =
      store.peers.map (·.id.toNat) := by simp
  have hhistory : ∀ p ∈ store.peers.map (·.after c), IsHistory (calls ++ [c]) p := by
    intro p hp
    obtain ⟨q, hq, rfl⟩ := List.mem_map.mp hp
    exact (h.history q hq).append_singleton c
  rcases added_cases store c with ⟨hadded, hnext, -⟩ | ⟨key, nowMs, rfl, hkey, hadded, hnext⟩
  · rw [hadded, List.append_nil] at hpeers
    have hsame : (store.call c).peers.length = store.peers.length := by
      rw [hpeers, List.length_map]
    refine ⟨hnodup, hmem, ?_, ?_, hlen, ?_⟩
    · rw [hsame, hpeers, hids]
      exact h.ids
    · rw [hnext, hsame]
      exact h.nextId
    · rwa [hpeers]
  · rw [hadded] at hpeers
    have hone : (store.call (.upsert key nowMs)).peers.length = store.peers.length + 1 := by
      rw [hpeers, List.length_append, List.length_map, List.length_singleton]
    -- The vector is full long before the ids wrap around.
    have hwrap : store.peers.length + 1 < 2 ^ 64 - 1 := by
      rw [hone, maxPeers] at hlen
      omega
    refine ⟨hnodup, hmem, ?_, ?_, hlen, ?_⟩
    · rw [hone, hpeers, List.map_append, hids, h.ids, List.range'_concat]
      simp [KnownPeer.firstContact, h.nextId, Nat.add_comm]
    · rw [hnext, hone, UInt64.toNat_add, h.nextId]
      exact Nat.mod_eq_of_lt (by simp; omega)
    · rw [hpeers]
      intro p hp
      rcases List.mem_append.mp hp with hp | hp
      · exact hhistory p hp
      · obtain rfl := List.mem_singleton.mp hp
        exact ⟨calls, nowMs, [], rfl, fun hcon => hkey ((h.mem_keys key).mpr hcon), rfl⟩

/-- A run ends in a store that keeps track of its calls, or panics at more keys than fit. -/
theorem tracks_run (calls : List Call) :
    (∀ store, run calls = some store → Tracks calls store) ∧
      (run calls = none → ∃ keys : List (Bytes 32), keys.Nodup ∧ maxPeers < keys.length ∧
        ∀ key ∈ keys, Contacted calls key) := by
  -- By induction on the calls, the last one first: a run that has panicked stays so.
  induction calls using List.reverseRecOn with
  | nil => exact ⟨fun store h => Option.some.inj h ▸ .new, nofun⟩
  | append_singleton calls c ih =>
    rw [run_append_singleton]
    cases hrun : run calls with
    | none =>
      refine ⟨nofun, fun _ => ?_⟩
      obtain ⟨keys, hnodup, hlen, hkeys⟩ := ih.2 hrun
      exact ⟨keys, hnodup, hlen, fun key hk => contacted_append_singleton.mpr (.inl (hkeys key hk))⟩
    | some store =>
      have htracks := ih.1 store hrun
      rw [Option.bind_some, callOrPanic]
      split
      -- Whether the vector has room after the call.
      · next hlen =>
        refine ⟨fun store' h => ?_, nofun⟩
        obtain rfl := Option.some.inj h
        exact htracks.call c hlen
      · next hlen =>
        refine ⟨nofun, fun _ => ?_⟩
        obtain ⟨hnodup, hmem⟩ := htracks.keys_call c
        exact ⟨_, hnodup, by rw [List.length_map]; omega, fun key => (hmem key).mp⟩

/-- The rows of a store in a longer run. -/
theorem foldl_after_mem {calls more : List Call} {store store' : KnownPeerStore}
    (h : run calls = some store) (h' : run (calls ++ more) = some store') {p : KnownPeer}
    (hp : p ∈ store.peers) : more.foldl KnownPeer.after p ∈ store'.peers := by
  induction more using List.reverseRecOn generalizing store' with
  | nil =>
    rw [List.append_nil, h] at h'
    exact Option.some.inj h' ▸ hp
  | append_singleton more c ih =>
    rw [← List.append_assoc, run_append_singleton] at h'
    obtain ⟨mid, hmid, hcall⟩ := Option.bind_eq_some_iff.mp h'
    have htracks := (tracks_run (calls ++ more)).1 mid hmid
    rw [callOrPanic] at hcall
    split at hcall
    · obtain rfl := Option.some.inj hcall
      rw [peers_call htracks.nodup_keys htracks.nodup_ids, List.foldl_append]
      exact List.mem_append_left _ (List.mem_map_of_mem (ih hmid))
    · cases hcall

/-! ## What the calls leave of a row -/

/-- The labels that calls set for an id. -/
def labelsSet (id : UInt64) (calls : List Call) : List (List Char) :=
  calls.filterMap fun
    | .setLabel i label => if i = id then some label else none
    | .upsert _ _ => none

/-- Calls keep the id, the key and the time of the first contact of a row, and do not set that of
the last one back. -/
theorem foldl_after_fixed (calls : List Call) (p : KnownPeer) :
    (calls.foldl KnownPeer.after p).id = p.id ∧
      (calls.foldl KnownPeer.after p).staticPubkey = p.staticPubkey ∧
      (calls.foldl KnownPeer.after p).firstSeenAtMs = p.firstSeenAtMs ∧
      p.lastSeenAtMs ≤ (calls.foldl KnownPeer.after p).lastSeenAtMs := by
  induction calls generalizing p with
  | nil => exact ⟨rfl, rfl, rfl, UInt64.le_refl _⟩
  | cons c calls ih =>
    obtain ⟨hid, hkey, hfirst, hlast⟩ := ih (p.after c)
    rw [List.foldl_cons]
    exact ⟨hid.trans (p.id_after c), hkey.trans (p.staticPubkey_after c),
      hfirst.trans (p.firstSeenAtMs_after c), UInt64.le_trans (p.lastSeenAtMs_le_after c) hlast⟩

/-- The label is that of the last call that set one. -/
theorem displayLabel_foldl_after (calls : List Call) (p : KnownPeer) :
    (calls.foldl KnownPeer.after p).displayLabel =
      ((labelsSet p.id calls).getLast?.map truncateTo120Bytes).or p.displayLabel := by
  -- By induction on the calls, the last one first: it sets this label, another one or none.
  induction calls using List.reverseRecOn with
  | nil => rfl
  | append_singleton calls c ih =>
    have hid := (foldl_after_fixed calls p).1
    rw [List.foldl_append, List.foldl_cons, List.foldl_nil, labelsSet, List.filterMap_append]
    cases c with
    | upsert staticPubkey nowMs =>
      have hlabel : (calls.foldl KnownPeer.after p).displayLabel =
          ((calls.foldl KnownPeer.after p).after (.upsert staticPubkey nowMs)).displayLabel := by
        simp only [KnownPeer.after]
        split <;> rfl
      rw [← hlabel, ih]
      simp [labelsSet]
    | setLabel i label =>
      by_cases hi : i = p.id
      · subst hi
        simp [KnownPeer.after, hid, KnownPeer.withLabel]
      · have hne : ¬ p.id = i := fun heq => hi heq.symm
        simp [KnownPeer.after, hid, hne, hi, ih, labelsSet]

/-- What a store holds after any calls, with the times in any order. A run ends early only where
more keys were seen than rows fit in a vector. Each key that was seen has one row; the ids are the
numbers from one on in the order of the rows; a row was first seen at the first contact with its
key, and its label is the longest prefix of the last label set since then; a label for an unknown
id changes nothing; and in a longer run a row keeps its key, its id and the time of its first
contact, while that of the last does not go back. -/
theorem run_holds (calls : List Call) :
    (run calls = none → ∃ keys : List (Bytes 32), keys.Nodup ∧ maxPeers < keys.length ∧
      ∀ key ∈ keys, Contacted calls key) ∧
    ∀ store, run calls = some store →
      (store.peers.map KnownPeer.staticPubkey).Nodup ∧
      (∀ key, key ∈ store.peers.map KnownPeer.staticPubkey ↔ Contacted calls key) ∧
      store.peers.map (·.id.toNat) = List.range' 1 store.peers.length ∧
      (∀ p ∈ store.peers, ∃ before nowMs later,
        calls = before ++ .upsert p.staticPubkey nowMs :: later ∧
        ¬ Contacted before p.staticPubkey ∧ p.firstSeenAtMs = nowMs ∧
        match (labelsSet p.id later).getLast? with
        | none => p.displayLabel = none
        | some label => ∃ l, p.displayLabel = some l ∧ IsLongestPrefix label l) ∧
      (∀ id label, (∀ p ∈ store.peers, p.id ≠ id) → store.setLabel id label = (false, store)) ∧
      ∀ more store', run (calls ++ more) = some store' → ∀ p ∈ store.peers,
        ∃ p' ∈ store'.peers, p'.staticPubkey = p.staticPubkey ∧ p'.id = p.id ∧
          p'.firstSeenAtMs = p.firstSeenAtMs ∧ p.lastSeenAtMs ≤ p'.lastSeenAtMs := by
  refine ⟨(tracks_run calls).2, fun store hrun => ?_⟩
  have h := (tracks_run calls).1 store hrun
  refine ⟨h.nodup_keys, h.mem_keys, h.ids, fun p hp => ?_, fun id label hid => ?_,
    fun more store' hrun' p hp => ?_⟩
  -- The fields of a row are what its calls since the first contact made of them.
  · obtain ⟨before, nowMs, later, hcalls, hfirst, hfold⟩ := h.history p hp
    have hlabel := displayLabel_foldl_after later (.firstContact p.id p.staticPubkey nowMs)
    have hseen := (foldl_after_fixed later (.firstContact p.id p.staticPubkey nowMs)).2.2.1
    rw [← hfold] at hlabel hseen
    refine ⟨before, nowMs, later, hcalls, hfirst, hseen, ?_⟩
    change p.displayLabel = ((labelsSet p.id later).getLast?.map truncateTo120Bytes).or none
      at hlabel
    rw [hlabel]
    cases (labelsSet p.id later).getLast? with
    | none => rfl
    | some label => exact ⟨_, rfl, isLongestPrefix_truncateTo120Bytes label⟩
  -- No row has this id, so `set_label` finds none.
  · have hnone : store.peers.findIdx? (·.id = id) = none :=
      List.findIdx?_eq_none_iff.mpr fun p hp => decide_eq_false (hid p hp)
    rw [setLabel, hnone]
  -- Later calls change a row only in its label and its last contact.
  · obtain ⟨hid, hkey, hfirst, hlast⟩ := foldl_after_fixed more p
    exact ⟨_, foldl_after_mem hrun hrun' hp, hkey, hid, hfirst, hlast⟩

end KnownPeerStore

end LowBand.Crypto
