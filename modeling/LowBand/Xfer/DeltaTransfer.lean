import LowBand.Lib.Run
import LowBand.Lib.Since
import LowBand.Xfer.CacheCompaction

/-!
# Delta transfer

`cache.rs` and `chunker.rs` of `core/xfer`: a file is cut into chunks, the chunk cache of the peer
says which of them the peer has (`splitDelta`), the others are sent, and what was delivered is
entered in the cache (`confirmDelivered`). The positions of the cuts and the hash function are
parameters.

The peer is an abstract one: it keeps what it is sent, by hash, may evict a chunk and say so, and
puts a file together from the hashes of the manifest. Transfers may break off, and a persistent
cache may be reopened at any moment.

`LawfulCache` says what the sender relies on, and both caches have it, so all runs come out the same
with either (`emitted_eq`). From this a transfer sends exactly what was not delivered since it was
last evicted (`delta_sends`), and the peer always has what it was not sent, so it gets every file
(`delta_rebuilds`).
-/

namespace LowBand.Xfer

open Lib

/-! ## The source -/

/-- The trait `ChunkCache`. -/
class ChunkCache (κ : Type) where
  contains : κ → ChunkHash → Bool
  insert : κ → ChunkHash → κ
  remove : κ → ChunkHash → κ

/-- `InMemoryChunkCache`. -/
structure InMemoryChunkCache where
  /-- The hashes held. -/
  known : Finset ChunkHash

namespace InMemoryChunkCache

/-- `new`. -/
def new : InMemoryChunkCache := ⟨∅⟩

/-- The cache in memory is a set of hashes. -/
instance : ChunkCache InMemoryChunkCache where
  contains c id := decide (id ∈ c.known)
  insert c id := ⟨Insert.insert id c.known⟩
  remove c id := ⟨c.known.erase id⟩

end InMemoryChunkCache

/-- The persistent cache, with its log. -/
instance : ChunkCache (PersistentChunkCache × List UInt8) where
  contains c id := c.1.contains id
  insert c id := c.1.insert c.2 id
  remove c id := c.1.remove c.2 id

section Source

variable {κ : Type} [ChunkCache κ]

/-- `split_delta`: the chunks to send, and those that the peer has. -/
def splitDelta (chunks : List ChunkHash) (cache : κ) : List ChunkHash × List ChunkHash :=
  chunks.foldl (fun (toSend, alreadyCached) id =>
    if ChunkCache.contains cache id then (toSend, alreadyCached ++ [id])
    else (toSend ++ [id], alreadyCached)) ([], [])

/-- `confirm_delivered`. -/
def confirmDelivered (cache : κ) (ids : List ChunkHash) : κ := ids.foldl ChunkCache.insert cache

end Source

/-- `FileChunk`. -/
structure FileChunk where
  offset : ℕ
  data : List UInt8
  chunkHash : ChunkHash

/-- The content-defined cuts of `FastCDC`, offset and length of each chunk. -/
structure FastCdc where
  /-- The chunks of a file. -/
  cuts : List UInt8 → List (ℕ × ℕ)
  /-- One after another they make up the file. -/
  covers : ∀ source,
    ((cuts source).flatMap fun cut => (source.drop cut.1).take cut.2) = source

/-- Each file in two halves. -/
def FastCdc.halves : FastCdc where
  cuts source := [(0, source.length / 2), (source.length / 2, source.length - source.length / 2)]
  covers source := by
    have hrest : (source.drop (source.length / 2)).take (source.length - source.length / 2) =
        source.drop (source.length / 2) :=
      List.take_of_length_le (List.length_drop ..).le
    rw [List.flatMap_cons, List.flatMap_singleton, List.drop_zero, hrest, List.take_append_drop]

/-- What the sender is built with: the cuts, and `compute_chunk_hash`. -/
structure Chunking where
  fastCdc : FastCdc
  computeChunkHash : List UInt8 → ChunkHash

/-- `chunk_data`. -/
def Chunking.chunkData (ch : Chunking) (source : List UInt8) : List FileChunk :=
  (ch.fastCdc.cuts source).map fun (offset, length) =>
    let data := (source.drop offset).take length
    ⟨offset, data, ch.computeChunkHash data⟩

/-! ## The peer -/

/-- What the peer keeps, by hash. -/
abbrev Store := ChunkHash → Option (List UInt8)

namespace Store

/-- The peer keeps the chunks that it is sent. -/
def receive (store : Store) (chunks : List FileChunk) : Store :=
  chunks.foldl (fun store chunk => Function.update store chunk.chunkHash (some chunk.data)) store

/-- The file of a manifest, if all chunks are there. -/
def rebuild (store : Store) (chunkIds : List ChunkHash) : Option (List UInt8) :=
  (chunkIds.mapM store).map List.flatten

end Store

/-! ## The two together -/

/-- What happens between the two. -/
inductive DeltaEvent where
  /-- A file is sent, received and confirmed. -/
  | transfer (source : List UInt8)
  /-- Only so many of the chunks to send arrive, and nothing is confirmed. -/
  | brokenOff (source : List UInt8) (arrived : ℕ)
  /-- The peer drops a chunk and says so. -/
  | evict (id : ChunkHash)
  /-- The sender opens its cache again. -/
  | reopen (order : IterOrder ChunkHash)

/-- What comes of a transfer: the hashes whose data were sent, and the file that the peer makes. -/
structure DeltaOutcome where
  sent : List ChunkHash
  rebuilt : Option (List UInt8)

/-- One event, with the cache of the sender and the store of the peer. -/
def deltaTransfer {κ : Type} [ChunkCache κ] (ch : Chunking)
    (reopen : IterOrder ChunkHash → κ → κ) : Machine (κ × Store) DeltaEvent DeltaOutcome
  | (cache, store), .transfer source =>
    let chunks := ch.chunkData source
    let ids := chunks.map (·.chunkHash)
    let toSend := (splitDelta ids cache).1
    let store := store.receive (chunks.filter fun chunk => chunk.chunkHash ∈ toSend)
    ([⟨toSend, store.rebuild ids⟩], (confirmDelivered cache toSend, store))
  | (cache, store), .brokenOff source arrived =>
    let chunks := ch.chunkData source
    let toSend := (splitDelta (chunks.map (·.chunkHash)) cache).1
    ([], (cache,
      store.receive ((chunks.filter fun chunk => chunk.chunkHash ∈ toSend).take arrived)))
  | (cache, store), .evict id =>
    ([], (ChunkCache.remove cache id, Function.update store id none))
  | (cache, store), .reopen order => ([], (reopen order cache, store))

/-! ## What the sender relies on -/

/-- A cache that answers as a set of hashes does, and survives a reopening. -/
structure LawfulCache {κ : Type} [ChunkCache κ] (reopen : IterOrder ChunkHash → κ → κ)
    (holds : κ → Finset ChunkHash → Prop) : Prop where
  /-- It contains what the set does. -/
  contains : ∀ c s id, holds c s → (ChunkCache.contains c id = true ↔ id ∈ s)
  /-- An insertion adds a hash. -/
  insert : ∀ c s id, holds c s → holds (ChunkCache.insert c id) (Insert.insert id s)
  /-- A removal takes it out. -/
  remove : ∀ c s id, holds c s → holds (ChunkCache.remove c id) (s.erase id)
  /-- A reopening changes nothing. -/
  reopen : ∀ c s order, holds c s → holds (reopen order c) s

/-- The cache in memory, of a sender that is never restarted. -/
theorem lawful_inMemory :
    LawfulCache (fun _ (c : InMemoryChunkCache) => c) (fun c s => c.known = s) where
  contains := by
    rintro c s id rfl
    exact decide_eq_true_iff
  insert := by
    rintro c s id rfl
    rfl
  remove := by
    rintro c s id rfl
    rfl
  reopen := fun _ _ _ h => h

namespace PersistentChunkCache

/-- Opening the log again. -/
def reopenLog (order : IterOrder ChunkHash) (c : PersistentChunkCache × List UInt8) :
    PersistentChunkCache × List UInt8 :=
  openAt order (some c.2)

/-- The cache and its log hold a set. -/
def HoldsSet (c : PersistentChunkCache × List UInt8) (s : Finset ChunkHash) : Prop :=
  ∃ ops, Follows c ops ∧ applyOps ops = s

/-- A log that does not exist holds nothing. -/
theorem holdsSet_new (order : IterOrder ChunkHash) : HoldsSet (openAt order none) ∅ :=
  ⟨[], ⟨rfl, rfl, dvd_zero _, Or.inl rfl⟩, rfl⟩

/-- The persistent cache, with its log on disk. -/
theorem lawful : LawfulCache reopenLog HoldsSet where
  contains := by
    rintro c s id ⟨ops, h, rfl⟩
    show decide (id ∈ c.1.known) = true ↔ _
    rw [h.known_eq]
    exact decide_eq_true_iff
  insert := by
    rintro c s id ⟨ops, h, rfl⟩
    have hstep : Follows (c.1.call c.2 (.insert id)) (ops ++ [.insert id]) :=
      h.step (.call (.insert id))
    exact ⟨ops ++ [Op.insert id], hstep, applyOps_append ops (.insert id)⟩
  remove := by
    rintro c s id ⟨ops, h, rfl⟩
    have hstep : Follows (c.1.call c.2 (.remove id)) (ops ++ [.remove id]) :=
      h.step (.call (.remove id))
    exact ⟨ops ++ [Op.remove id], hstep, applyOps_append ops (.remove id)⟩
  -- Opening again replays the log.
  reopen := by
    rintro c s order ⟨ops, h, rfl⟩
    have hstep := h.step (.reopen order)
    rw [Later.op?, Option.toList_none, List.append_nil] at hstep
    exact ⟨ops, hstep, rfl⟩

end PersistentChunkCache

section Lawful

variable {κ : Type} [ChunkCache κ] {reopen : IterOrder ChunkHash → κ → κ}
  {holds : κ → Finset ChunkHash → Prop}

/-- What is sent and what is elided, in terms of the set. -/
theorem LawfulCache.splitDelta_eq (hl : LawfulCache reopen holds) {c : κ} {s : Finset ChunkHash}
    (h : holds c s) (chunks : List ChunkHash) :
    splitDelta chunks c =
      (chunks.filter fun id => decide (id ∉ s), chunks.filter fun id => decide (id ∈ s)) := by
  suffices hacc : ∀ toSend alreadyCached, chunks.foldl (fun (toSend, alreadyCached) id =>
      if ChunkCache.contains c id then (toSend, alreadyCached ++ [id])
      else (toSend ++ [id], alreadyCached)) (toSend, alreadyCached) =
        (toSend ++ chunks.filter (fun id => decide (id ∉ s)),
          alreadyCached ++ chunks.filter fun id => decide (id ∈ s)) from hacc [] []
  induction chunks with
  | nil => simp
  | cons id chunks ih =>
    intro toSend alreadyCached
    have hcontains := hl.contains c s id h
    rw [List.foldl_cons, ih]
    by_cases hmem : id ∈ s
    · simp [hcontains.mpr hmem, hmem]
    · simp [mt hcontains.mp hmem, hmem]

/-- What is confirmed is held. -/
theorem LawfulCache.holds_confirmDelivered (hl : LawfulCache reopen holds) {c : κ}
    {s : Finset ChunkHash} (h : holds c s) (ids : List ChunkHash) :
    holds (confirmDelivered c ids) (s ∪ ids.toFinset) := by
  induction ids generalizing c s with
  | nil => simpa [confirmDelivered] using h
  | cons id ids ih =>
    have hnext := ih (hl.insert c s id h)
    have hset : Insert.insert id s ∪ ids.toFinset = s ∪ (id :: ids).toFinset := by
      rw [List.toFinset_cons, Finset.insert_union, Finset.union_insert]
    rw [← hset]
    exact hnext

/-- All runs come out the same with a lawful cache and with the set in memory. -/
theorem LawfulCache.emitted_eq (hl : LawfulCache reopen holds) (ch : Chunking) {c : κ}
    {s : Finset ChunkHash} (h : holds c s) (store : Store) (es : List DeltaEvent) :
    let inMemory : Machine (InMemoryChunkCache × Store) DeltaEvent DeltaOutcome :=
      deltaTransfer ch fun _ c => c
    (deltaTransfer ch reopen).emitted (c, store) es = inMemory.emitted (⟨s⟩, store) es ∧
      holds ((deltaTransfer ch reopen).finish (c, store) es).1
        (inMemory.finish (⟨s⟩, store) es).1.known ∧
      ((deltaTransfer ch reopen).finish (c, store) es).2 =
        (inMemory.finish (⟨s⟩, store) es).2 := by
  let R : κ × Store → InMemoryChunkCache × Store → Prop :=
    fun p q => holds p.1 q.1.known ∧ p.2 = q.2
  refine Machine.simulation R (fun e _ => ?_) (show R (c, store) (⟨s⟩, store) from ⟨h, rfl⟩)
  rintro ⟨c, store⟩ ⟨⟨s⟩, store'⟩ ⟨h, hstore⟩
  obtain rfl : store = store' := hstore
  -- The two split every file alike.
  have hsplit : ∀ ids, splitDelta ids c = splitDelta ids (⟨s⟩ : InMemoryChunkCache) := by
    intro ids
    rw [hl.splitDelta_eq h, lawful_inMemory.splitDelta_eq (c := ⟨s⟩) rfl]
  cases e with
  | transfer source =>
    refine ⟨by simp only [deltaTransfer, hsplit], ?_, by simp only [deltaTransfer, hsplit]⟩
    have hconfirmed : ∀ ids, (confirmDelivered (⟨s⟩ : InMemoryChunkCache) ids).known =
        s ∪ ids.toFinset :=
      fun ids => lawful_inMemory.holds_confirmDelivered (c := ⟨s⟩) rfl ids
    simp only [deltaTransfer, hsplit]
    rw [hconfirmed]
    exact hl.holds_confirmDelivered h _
  | brokenOff source arrived =>
    exact ⟨rfl, h, by simp only [deltaTransfer, hsplit]⟩
  | evict id => exact ⟨rfl, hl.remove c s id h, rfl⟩
  | reopen order => exact ⟨rfl, hl.reopen c s order h, rfl⟩

end Lawful

/-! ## What is sent -/

/-- The hashes of a file's manifest. -/
def Chunking.chunkIds (ch : Chunking) (source : List UInt8) : List ChunkHash :=
  (ch.chunkData source).map (·.chunkHash)

/-- The chunk was in a file that was delivered, and was not evicted since. -/
def Delivered (ch : Chunking) (es : List DeltaEvent) (id : ChunkHash) : Prop :=
  Since (fun _ e => ∃ source, e = .transfer source ∧ id ∈ ch.chunkIds source) (· = .evict id) es

section InMemory

variable (ch : Chunking)

/-- The two, with the cache in memory. -/
abbrev inMemory : Machine (InMemoryChunkCache × Store) DeltaEvent DeltaOutcome :=
  deltaTransfer ch fun _ c => c

/-- What a transfer sends. -/
theorem sent_inMemory (c : InMemoryChunkCache) (ids : List ChunkHash) :
    (splitDelta ids c).1 = ids.filter fun id => decide (id ∉ c.known) :=
  congrArg Prod.fst (lawful_inMemory.splitDelta_eq rfl ids)

/-- A transfer leaves all chunks of its file in the cache. -/
theorem known_transfer (c : InMemoryChunkCache) (ids : List ChunkHash) :
    (confirmDelivered c (splitDelta ids c).1).known = c.known ∪ ids.toFinset := by
  rw [lawful_inMemory.holds_confirmDelivered rfl, sent_inMemory]
  ext id
  by_cases hid : id ∈ c.known <;> simp [hid]

/-- The cache holds what was delivered and not evicted since. -/
theorem mem_known_finish (es : List DeltaEvent) (id : ChunkHash) :
    id ∈ ((inMemory ch).finish (.new, fun _ => none) es).1.known ↔ Delivered ch es id := by
  let held : List DeltaEvent → Prop :=
    fun es => id ∈ ((inMemory ch).finish (.new, fun _ => none) es).1.known
  have hstart : ¬ held [] := Finset.notMem_empty id
  refine @iff_since_of_concat _ _ _ held hstart (fun es e => ?_) es
  simp only [held]
  rw [Machine.finish_append]
  generalize (inMemory ch).finish (.new, fun _ => none) es = p
  obtain ⟨c, store⟩ := p
  change id ∈ (inMemory ch (c, store) e).2.1.known ↔ _
  -- Only a transfer that ends adds to the cache, and only an eviction takes away.
  cases e with
  | transfer source =>
    show id ∈ (confirmDelivered c (splitDelta (ch.chunkIds source) c).1).known ↔ _
    rw [known_transfer]
    simp [or_comm]
  | brokenOff source arrived => simp [deltaTransfer]
  | evict id' =>
    show id ∈ c.known.erase id' ↔ _
    simp [and_comm, eq_comm]
  | reopen order => simp [deltaTransfer]

end InMemory

/-! ## What the peer gets -/

/-- The data of a file's chunks. -/
def Chunking.pieces (ch : Chunking) (source : List UInt8) : List (List UInt8) :=
  (ch.chunkData source).map (·.data)

/-- The file that an event is about. -/
def DeltaEvent.source? : DeltaEvent → Option (List UInt8)
  | .transfer source | .brokenOff source _ => some source
  | .evict _ | .reopen _ => none

/-- The files that were sent and received. -/
def transferred (es : List DeltaEvent) : List (List UInt8) :=
  es.filterMap fun
    | .transfer source => some source
    | _ => none

/-- The chunks of all files of a run. -/
def piecesOf (ch : Chunking) (es : List DeltaEvent) : List (List UInt8) :=
  (es.filterMap DeltaEvent.source?).flatMap ch.pieces

/-- The chunks make up the file. -/
theorem Chunking.flatten_pieces (ch : Chunking) (source : List UInt8) :
    (ch.pieces source).flatten = source := by
  have hpieces : ch.pieces source = (ch.fastCdc.cuts source).map fun cut =>
      (source.drop cut.1).take cut.2 := by
    rw [pieces, chunkData, List.map_map]
    rfl
  rw [hpieces, ← List.flatMap_def]
  exact ch.fastCdc.covers source

/-- The hash of a chunk is that of its data. -/
theorem Chunking.chunkHash_eq {ch : Chunking} {source : List UInt8} {chunk : FileChunk}
    (h : chunk ∈ ch.chunkData source) : chunk.chunkHash = ch.computeChunkHash chunk.data := by
  obtain ⟨cut, -, rfl⟩ := List.mem_map.mp h
  rfl

/-- A chunk whose data is among those of a run, under its own hash. -/
def Sound (hash : List UInt8 → ChunkHash) (pool : List (List UInt8)) (chunk : FileChunk) : Prop :=
  chunk.chunkHash = hash chunk.data ∧ chunk.data ∈ pool

/-- The store holds what the cache says, each chunk under its hash. -/
structure Serves (hash : List UInt8 → ChunkHash) (pool : List (List UInt8))
    (known : Finset ChunkHash) (store : Store) : Prop where
  /-- What the cache holds, the peer has. -/
  known : ∀ id ∈ known, (store id).isSome
  /-- What the peer has is a chunk of the run with this hash. -/
  sound : ∀ id data, store id = some data → hash data = id ∧ data ∈ pool

section Serves

variable {hash : List UInt8 → ChunkHash} {pool : List (List UInt8)} {known : Finset ChunkHash}
  {store : Store}

/-- The peer has what it had, and what it is sent. -/
theorem Serves.receive (h : Serves hash pool known store) {chunks : List FileChunk}
    (hchunks : ∀ chunk ∈ chunks, Sound hash pool chunk) :
    Serves hash pool (known ∪ (chunks.map (·.chunkHash)).toFinset) (store.receive chunks) := by
  -- By induction on the chunks that arrive.
  induction chunks generalizing known store with
  | nil => simpa [Store.receive] using h
  | cons chunk chunks ih =>
    obtain ⟨⟨hhash, hpool⟩, hchunks⟩ := List.forall_mem_cons.mp hchunks
    have hone : Serves hash pool (insert chunk.chunkHash known)
        (Function.update store chunk.chunkHash (some chunk.data)) := by
      constructor
      · intro id hid
        by_cases heq : id = chunk.chunkHash
        · rw [heq, Function.update_self, Option.isSome_some]
        · rw [Function.update_of_ne heq]
          exact h.known id ((Finset.mem_insert.mp hid).resolve_left heq)
      · intro id data hdata
        by_cases heq : id = chunk.chunkHash
        · rw [heq, Function.update_self] at hdata
          obtain rfl := Option.some.inj hdata
          exact ⟨(heq.trans hhash).symm, hpool⟩
        · rw [Function.update_of_ne heq] at hdata
          exact h.sound id data hdata
    have hset : insert chunk.chunkHash known ∪ (chunks.map (·.chunkHash)).toFinset =
        known ∪ ((chunk :: chunks).map (·.chunkHash)).toFinset := by
      rw [List.map_cons, List.toFinset_cons, Finset.insert_union, Finset.union_insert]
    rw [← hset]
    exact ih hone hchunks

/-- The store serves a smaller cache as well. -/
theorem Serves.mono (h : Serves hash pool known store) {known' : Finset ChunkHash}
    (hsub : known' ⊆ known) : Serves hash pool known' store :=
  ⟨fun id hid => h.known id (hsub hid), h.sound⟩

/-- A chunk that is evicted on both sides. -/
theorem Serves.evict (h : Serves hash pool known store) (id : ChunkHash) :
    Serves hash pool (known.erase id) (Function.update store id none) := by
  constructor
  · intro id' hid'
    obtain ⟨hne, hmem⟩ := Finset.mem_erase.mp hid'
    rw [Function.update_of_ne hne]
    exact h.known id' hmem
  · intro id' data hdata
    by_cases heq : id' = id
    · rw [heq, Function.update_self] at hdata
      cases hdata
    · rw [Function.update_of_ne heq] at hdata
      exact h.sound id' data hdata

/-- From the hashes of chunks that it has, the peer makes the file, when no two chunks of the run
have one hash. -/
theorem Serves.rebuild (h : Serves hash pool known store) (hinj : Set.InjOn hash {d | d ∈ pool})
    {chunks : List FileChunk} (hchunks : ∀ chunk ∈ chunks, Sound hash pool chunk)
    (hknown : ∀ chunk ∈ chunks, chunk.chunkHash ∈ known) :
    store.rebuild (chunks.map (·.chunkHash)) = some ((chunks.map (·.data)).flatten) := by
  have hmap : (chunks.map (·.chunkHash)).mapM store = some (chunks.map (·.data)) := by
    induction chunks with
    | nil => rfl
    | cons chunk chunks ih =>
      obtain ⟨⟨hhash, hpool⟩, hchunks⟩ := List.forall_mem_cons.mp hchunks
      obtain ⟨hfirst, hknown⟩ := List.forall_mem_cons.mp hknown
      obtain ⟨data, hdata⟩ := Option.isSome_iff_exists.mp (h.known _ hfirst)
      obtain ⟨hsame, hmem⟩ := h.sound _ _ hdata
      obtain rfl : data = chunk.data := hinj hmem hpool (hsame.trans hhash)
      rw [List.map_cons, List.mapM_cons, hdata, ih hchunks hknown]
      rfl
  rw [Store.rebuild, hmap]
  rfl

end Serves

/-- The chunks of a file that the event is about are chunks of the run. -/
theorem sound_chunkData {ch : Chunking} {pool : List (List UInt8)} {source : List UInt8}
    (hpool : ∀ d ∈ ch.pieces source, d ∈ pool) :
    ∀ chunk ∈ ch.chunkData source, Sound ch.computeChunkHash pool chunk :=
  fun _ hchunk => ⟨ch.chunkHash_eq hchunk, hpool _ (List.mem_map_of_mem hchunk)⟩

/-- After a transfer the peer has all chunks of the file, and what the cache holds. -/
theorem Serves.transfer {ch : Chunking} {pool : List (List UInt8)} {c : InMemoryChunkCache}
    {store : Store} (h : Serves ch.computeChunkHash pool c.known store) {source : List UInt8}
    (hpool : ∀ d ∈ ch.pieces source, d ∈ pool) :
    Serves ch.computeChunkHash pool (c.known ∪ (ch.chunkIds source).toFinset)
      (store.receive ((ch.chunkData source).filter fun chunk =>
        chunk.chunkHash ∈ (splitDelta (ch.chunkIds source) c).1)) := by
  have hsound := sound_chunkData hpool
  refine (h.receive fun chunk hchunk => hsound chunk (List.mem_of_mem_filter hchunk)).mono ?_
  -- A chunk that the cache does not hold is sent.
  intro id hid
  by_cases hknown : id ∈ c.known
  · exact Finset.mem_union_left _ hknown
  · have hids : id ∈ ch.chunkIds source :=
      List.mem_toFinset.mp ((Finset.mem_union.mp hid).resolve_left hknown)
    obtain ⟨chunk, hchunk, rfl⟩ := List.mem_map.mp hids
    refine Finset.mem_union_right _ (List.mem_toFinset.mpr (List.mem_map_of_mem ?_))
    rw [List.mem_filter, sent_inMemory]
    exact ⟨hchunk, by simpa [hknown] using hids⟩

/-- When no two chunks of a run have one hash, the peer gets every file that is transferred. -/
theorem rebuilt_inMemory (ch : Chunking) {pool : List (List UInt8)}
    (hinj : Set.InjOn ch.computeChunkHash {d | d ∈ pool}) {es : List DeltaEvent}
    (hpool : ∀ source ∈ es.filterMap DeltaEvent.source?, ∀ d ∈ ch.pieces source, d ∈ pool)
    {c : InMemoryChunkCache} {store : Store}
    (h : Serves ch.computeChunkHash pool c.known store) :
    ((inMemory ch).emitted (c, store) es).map (·.rebuilt) = (transferred es).map some := by
  -- By induction on the events: each keeps the store serving what the cache knows.
  induction es generalizing c store with
  | nil => rfl
  | cons e es ih =>
    rw [Machine.emitted, List.map_append]
    cases e with
    | transfer source =>
      obtain ⟨hfirst, hpool⟩ := List.forall_mem_cons.mp hpool
      have hserves := h.transfer hfirst
      have hrebuild := hserves.rebuild hinj (sound_chunkData hfirst) fun chunk hchunk =>
        Finset.mem_union_right _ (List.mem_toFinset.mpr (List.mem_map_of_mem hchunk))
      have hfile : ((ch.chunkData source).map (·.data)).flatten = source :=
        ch.flatten_pieces source
      rw [hfile] at hrebuild
      rw [← known_transfer] at hserves
      exact congrArg₂ List.cons hrebuild (ih hpool hserves)
    | brokenOff source arrived =>
      obtain ⟨hfirst, hpool⟩ := List.forall_mem_cons.mp hpool
      have hsound := sound_chunkData hfirst
      refine ih hpool ((h.receive fun chunk hchunk => hsound chunk ?_).mono
        Finset.subset_union_left)
      exact List.mem_of_mem_filter (List.mem_of_mem_take hchunk)
    | evict id => exact ih hpool (h.evict id)
    | reopen order => exact ih hpool h

/-! ## The persistent cache -/

/-- Two different chunks of a run with one hash. -/
def Collision (ch : Chunking) (es : List DeltaEvent) : Prop :=
  ∃ a ∈ piecesOf ch es, ∃ b ∈ piecesOf ch es,
    a ≠ b ∧ ch.computeChunkHash a = ch.computeChunkHash b

/-- The sender with its log on disk, and the peer. -/
abbrev persistent (ch : Chunking) :
    Machine ((PersistentChunkCache × List UInt8) × Store) DeltaEvent DeltaOutcome :=
  deltaTransfer ch PersistentChunkCache.reopenLog

open scoped Classical in
/-- After any transfers, interruptions, evictions and reopenings, in any order, a transfer sends
exactly the chunks that were not delivered since they were last evicted, in the order of the
manifest. All that was sent and made of it so far is what it would be with the cache in memory. -/
theorem delta_sends (ch : Chunking) (order : IterOrder ChunkHash) (es : List DeltaEvent)
    (source : List UInt8) :
    let start := PersistentChunkCache.openAt order none
    (persistent ch ((persistent ch).finish (start, fun _ => none) es) (.transfer source)).1.map
        (·.sent) =
      [(ch.chunkIds source).filter fun id => decide (¬ Delivered ch es id)] ∧
    (persistent ch).emitted (start, fun _ => none) es =
      (inMemory ch).emitted (.new, fun _ => none) es := by
  intro start
  have hstart : PersistentChunkCache.HoldsSet start ∅ := PersistentChunkCache.holdsSet_new order
  obtain ⟨hemitted, hholds, -⟩ :=
    PersistentChunkCache.lawful.emitted_eq ch hstart (fun _ => none) es
  refine ⟨?_, hemitted⟩
  generalize (persistent ch).finish (start, fun _ => none) es = p at hholds
  obtain ⟨c, store⟩ := p
  show [(splitDelta (ch.chunkIds source) c).1] = _
  rw [PersistentChunkCache.lawful.splitDelta_eq hholds]
  simp only [← mem_known_finish]
  congr!

/-- Files in two halves, each with its own bytes as its hash. -/
def halving : Chunking := ⟨.halves, Bytes.ofList 32⟩

/-- A file is transferred, the sender restarts, the peer evicts the second half, the first half of
another file arrives, and a third file starts as the first one. -/
noncomputable def restartedRun : List DeltaEvent :=
  [.transfer [1, 2, 3, 4], .reopen (.some _), .evict (Bytes.ofList 32 [3, 4]),
    .brokenOff [5, 6, 7, 8] 1, .transfer [1, 2, 9, 10]]

/-- Of the first file only the second half is sent again. -/
theorem delta_sends_second_half :
    let start := PersistentChunkCache.openAt (.some _) none
    (persistent halving ((persistent halving).finish (start, fun _ => none) restartedRun)
        (.transfer [1, 2, 3, 4])).1.map (·.sent) = [[Bytes.ofList 32 [3, 4]]] := by
  have hkept : Delivered halving restartedRun (Bytes.ofList 32 [1, 2]) :=
    (mem_known_finish halving restartedRun _).mp (by decide +kernel)
  have hevicted : ¬ Delivered halving restartedRun (Bytes.ofList 32 [3, 4]) :=
    mt (mem_known_finish halving restartedRun _).mpr (by decide +kernel)
  have hids : halving.chunkIds [1, 2, 3, 4] =
      [Bytes.ofList 32 [1, 2], Bytes.ofList 32 [3, 4]] := rfl
  intro start
  rw [(delta_sends halving (.some _) restartedRun [1, 2, 3, 4]).1, hids]
  simp [hkept, hevicted]

/-- After any transfers, interruptions, evictions and reopenings, in any order, the peer made every
file that was transferred, although it was sent only what it did not have; unless two different
chunks of these files have one hash. -/
theorem delta_rebuilds (ch : Chunking) (order : IterOrder ChunkHash) (es : List DeltaEvent) :
    ((persistent ch).emitted (PersistentChunkCache.openAt order none, fun _ => none) es).map
        (·.rebuilt) = (transferred es).map some ∨
      Collision ch es := by
  rw [(PersistentChunkCache.lawful.emitted_eq ch (PersistentChunkCache.holdsSet_new order)
    (fun _ => none) es).1]
  by_cases hcollision : Collision ch es
  · exact Or.inr hcollision
  · left
    have hinj : Set.InjOn ch.computeChunkHash {d | d ∈ piecesOf ch es} := by
      intro a ha b hb hab
      by_contra hne
      exact hcollision ⟨a, ha, b, hb, hne, hab⟩
    have hempty : Serves ch.computeChunkHash (piecesOf ch es) ∅ fun _ => none :=
      ⟨fun _ hid => absurd hid (Finset.notMem_empty _), fun _ _ hdata => by cases hdata⟩
    exact rebuilt_inMemory ch hinj
      (fun source hsource d hd => List.mem_flatMap.mpr ⟨source, hsource, hd⟩) hempty

/-- Both files that were transferred are put together, across the restart and the eviction. -/
theorem delta_rebuilds_restarted :
    ((persistent halving).emitted
        (PersistentChunkCache.openAt (.some _) none, fun _ => none) restartedRun).map (·.rebuilt) =
      [some [1, 2, 3, 4], some [1, 2, 9, 10]] := by
  have hdistinct : ¬ Collision halving restartedRun := by
    change ¬ ∃ a ∈ [[1, 2], [3, 4], [5, 6], [7, 8], [1, 2], [9, 10]],
      ∃ b ∈ [[1, 2], [3, 4], [5, 6], [7, 8], [1, 2], [9, 10]],
        a ≠ b ∧ (Bytes.ofList 32 a : Bytes 32) = Bytes.ofList 32 b
    decide +kernel
  exact (delta_rebuilds halving (.some _) restartedRun).resolve_right hdistinct

end LowBand.Xfer
