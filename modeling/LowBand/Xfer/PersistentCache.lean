import LowBand.Xfer.Resume

/-!
# The persistent chunk cache

`PersistentChunkCache` of `core/xfer/src/persistent_cache.rs` keeps the set of chunk hashes that a
peer holds in a log of 33-byte entries, a tag and a hash, replayed in order on open. `open`
rewrites the log as a snapshot when it has grown beyond twice the live set, and otherwise appends
to it as it stands.

A run may die inside an append. `open` drops the partial entry that is left, but appends behind it,
so the framing of every later entry is shifted unless a compaction comes first.
`torn_append_breaks_consistency` is a run after which `contains` reports a hash that was never
inserted. `consistent_of_aligned` shows that this is the only way to go wrong: as long as every
entry is appended to a log of whole entries, the next `open` holds exactly the replay of the
completely written operations.
-/

namespace LowBand.Xfer

open Lib

/-- An iteration order of hash sets: every set is listed, each element once. Rust fixes none. -/
structure IterOrder (α : Type*) where
  /-- The elements of a set in the order they are visited. -/
  list : Finset α → List α
  /-- Exactly the elements are visited. -/
  mem_list : ∀ s a, a ∈ list s ↔ a ∈ s
  /-- Each is visited once. -/
  nodup_list : ∀ s, (list s).Nodup

/-- Some iteration order. -/
noncomputable def IterOrder.some (α : Type*) : IterOrder α where
  list := Finset.toList
  mem_list _ _ := Finset.mem_toList
  nodup_list := Finset.nodup_toList

/-- `TAG_INSERT`. -/
def tagInsert : UInt8 := 0x01

/-- `TAG_REMOVE`; the replay takes every tag but `tagInsert` for it. -/
def tagRemove : UInt8 := 0x00

/-- `usize::MAX`. -/
def usizeMax : ℕ := 2 ^ 64 - 1

/-- The file-backed set of one peer's chunk hashes. -/
structure PersistentChunkCache where
  /-- The hashes held. -/
  known : Finset ChunkHash
  /-- The handle that entries are appended through. -/
  file : Handle
  /-- Number of entries in the log. -/
  logEntries : ℕ
deriving DecidableEq

namespace PersistentChunkCache

/-- The buffer of one log entry. -/
def entryBuf (tag : UInt8) (id : ChunkHash) : Bytes 33 := ⟨tag :: id.val, by simp⟩

/-- The body of the loop of `load`: apply one entry and count it. -/
def replayEntry (acc : Finset ChunkHash × ℕ) (buf : Bytes 33) : Finset ChunkHash × ℕ :=
  let id : ChunkHash := Bytes.ofList 32 (buf.val.drop 1)
  if buf.val[0]? = some tagInsert then (insert id acc.1, acc.2 + 1)
  else (acc.1.erase id, acc.2 + 1)

/-- `load`: replay the complete entries of the log. -/
def load (disk : Option (List UInt8)) : Finset ChunkHash × ℕ :=
  match disk with
  | none => (∅, 0)
  | some content => (records 33 content).foldl replayEntry (∅, 0)

/-- `compact`: the content of a snapshot of the live set, with the handle left behind it. -/
def compact (order : IterOrder ChunkHash) (live : Finset ChunkHash) : Handle × List UInt8 :=
  let content := (order.list live).flatMap fun id => (entryBuf tagInsert id).val
  (.cursor content.length, content)

/-- The number of log entries above which `open` compacts: `2 * known.len() + 64`, saturating. -/
def compactionThreshold (known : Finset ChunkHash) : ℕ :=
  min (min (known.card * 2) usizeMax + 64) usizeMax

/-- `open`: replay the log, compact it when it has grown too long, and open it for appending. -/
def openAt (order : IterOrder ChunkHash) (disk : Option (List UInt8)) :
    PersistentChunkCache × List UInt8 :=
  let (known, logEntries) := load disk
  if compactionThreshold known < logEntries then
    let (file, content) := compact order known
    (⟨known, file, known.card⟩, content)
  else (⟨known, .append, logEntries⟩, disk.getD [])

/-- `append_entry`. -/
def appendEntry (c : PersistentChunkCache) (disk : List UInt8) (tag : UInt8) (id : ChunkHash) :
    PersistentChunkCache × List UInt8 :=
  let (file, disk) := c.file.write disk (entryBuf tag id).val
  ({ c with file := file, logEntries := c.logEntries + 1 }, disk)

/-- `contains`. -/
def contains (c : PersistentChunkCache) (id : ChunkHash) : Bool := id ∈ c.known

/-- `insert`: a new hash is added and logged. -/
def insert (c : PersistentChunkCache) (disk : List UInt8) (id : ChunkHash) :
    PersistentChunkCache × List UInt8 :=
  if id ∈ c.known then (c, disk)
  else appendEntry { c with known := Insert.insert id c.known } disk tagInsert id

/-- `remove`: a hash that is held is dropped and logged. -/
def remove (c : PersistentChunkCache) (disk : List UInt8) (id : ChunkHash) :
    PersistentChunkCache × List UInt8 :=
  if id ∈ c.known then appendEntry { c with known := c.known.erase id } disk tagRemove id
  else (c, disk)

/-! ## Operations and their entries -/

/-- The two mutations. -/
inductive Op
  | insert (id : ChunkHash)
  | remove (id : ChunkHash)
deriving DecidableEq

/-- What a mutation means for a set of hashes. -/
def Op.apply (s : Finset ChunkHash) : Op → Finset ChunkHash
  | .insert id => Insert.insert id s
  | .remove id => s.erase id

/-- The log entry of a mutation. -/
def Op.entry : Op → Bytes 33
  | .insert id => entryBuf tagInsert id
  | .remove id => entryBuf tagRemove id

/-- The set that a sequence of mutations leaves, from the empty one. -/
def applyOps (ops : List Op) : Finset ChunkHash := ops.foldl Op.apply ∅

/-- The cache's method for a mutation. -/
def call (c : PersistentChunkCache) (disk : List UInt8) : Op → PersistentChunkCache × List UInt8
  | .insert id => c.insert disk id
  | .remove id => c.remove disk id

/-- Whether the call appends an entry: it inserts a new hash or removes one that is held. -/
def Writes (c : PersistentChunkCache) : Op → Prop
  | .insert id => id ∉ c.known
  | .remove id => id ∈ c.known

/-- Whether an operation writes to the log can be decided. -/
instance (c : PersistentChunkCache) : ∀ op, Decidable (c.Writes op)
  | .insert id => inferInstanceAs (Decidable (id ∉ c.known))
  | .remove id => inferInstanceAs (Decidable (id ∈ c.known))

/-- A call that writes applies its mutation and sends its entry to the log. -/
theorem call_of_writes {c : PersistentChunkCache} {disk : List UInt8} {op : Op}
    (h : c.Writes op) :
    c.call disk op =
      (⟨op.apply c.known, (c.file.write disk op.entry.val).1, c.logEntries + 1⟩,
        (c.file.write disk op.entry.val).2) := by
  cases op with
  | insert id => simp [call, insert, show id ∉ c.known from h, appendEntry, Op.apply, Op.entry]
  | remove id => simp [call, remove, show id ∈ c.known from h, appendEntry, Op.apply, Op.entry]

/-- A call that does not write changes nothing. -/
theorem call_of_not_writes {c : PersistentChunkCache} {disk : List UInt8} {op : Op}
    (h : ¬ c.Writes op) : c.call disk op = (c, disk) := by
  cases op with
  | insert id => simp [call, insert, not_not.mp h]
  | remove id => simp [call, remove, show id ∉ c.known from h]

/-- Replaying the entry of a mutation applies it. -/
theorem replayEntry_entry (acc : Finset ChunkHash × ℕ) (op : Op) :
    replayEntry acc op.entry = (op.apply acc.1, acc.2 + 1) := by
  cases op with
  | insert id => simp [replayEntry, Op.entry, entryBuf, Op.apply]
  | remove id =>
    have htag : tagRemove ≠ tagInsert := by decide
    simp [replayEntry, Op.entry, entryBuf, Op.apply, htag]

/-- Replaying the entries of a sequence of mutations applies them in order. -/
theorem foldl_replayEntry (ops : List Op) (acc : Finset ChunkHash × ℕ) :
    (ops.map Op.entry).foldl replayEntry acc = (ops.foldl Op.apply acc.1, acc.2 + ops.length) := by
  induction ops generalizing acc with
  | nil => simp
  | cons op ops ih =>
    rw [List.map_cons, List.foldl_cons, replayEntry_entry, ih]
    simp only [List.foldl_cons, List.length_cons, Prod.mk.injEq, true_and]
    omega

/-- The mutations of a sequence of inserts add their hashes. -/
theorem foldl_apply_insert (ids : List ChunkHash) (s : Finset ChunkHash) :
    (ids.map Op.insert).foldl Op.apply s = s ∪ ids.toFinset := by
  induction ids generalizing s with
  | nil => simp
  | cons id ids ih =>
    rw [List.map_cons, List.foldl_cons, ih]
    ext a
    simp [Op.apply]

/-- The snapshot that `compact` writes is read back as the live set. -/
theorem load_compact (order : IterOrder ChunkHash) (live : Finset ChunkHash) :
    (load (some (compact order live).2)).1 = live := by
  have hcontent : (compact order live).2 =
      (((order.list live).map Op.insert).map Op.entry).flatMap Bytes.val := by
    simp [compact, List.flatMap_map, Op.entry]
  rw [load, hcontent, records_flatMap (by norm_num), foldl_replayEntry, foldl_apply_insert]
  ext a
  simp [order.mem_list]

/-- Behind an aligned log, a completely written entry applies its mutation. -/
theorem load_append_entry {content : List UInt8} (h : 33 ∣ content.length) (op : Op) :
    (load (some (content ++ op.entry.val))).1 = op.apply (load (some content)).1 := by
  rw [load, records_append_record (by norm_num) h, List.foldl_append]
  simp [replayEntry_entry, load]

/-- Behind an aligned log, a torn entry changes nothing. -/
theorem load_append_torn {content t : List UInt8} (h : 33 ∣ content.length)
    (ht : t.length < 33) : load (some (content ++ t)) = load (some content) := by
  rw [load, records_append_torn (by norm_num) h ht, load]

/-- The set that `open` holds is the one it loads, and the file it leaves loads as the same set. -/
theorem openAt_known (order : IterOrder ChunkHash) (disk : Option (List UInt8)) :
    (openAt order disk).1.known = (load disk).1 ∧
      (load (some (openAt order disk).2)).1 = (load disk).1 ∧
      (openAt order disk).1.file.AtEnd (openAt order disk).2 := by
  unfold openAt
  dsimp only
  split
  · exact ⟨rfl, load_compact order _, .inr rfl⟩
  · refine ⟨rfl, ?_, .inl rfl⟩
    cases disk with
    | none => rfl
    | some content => rfl

/-! ## Runs with crashes -/

/-- One log and the process that may have it open. `written` are the mutations whose entry was
completely written so far, in order. -/
structure Sys where
  /-- Content of the log file. -/
  disk : Option (List UInt8)
  /-- The open cache, when a process runs. -/
  live : Option PersistentChunkCache
  /-- The mutations whose entry was completely written, oldest first. -/
  written : List Op

/-- No log yet, and no process. -/
def Sys.init : Sys := ⟨none, none, []⟩

/-- What can happen: a process opens the log, calls `insert` or `remove`, dies inside the append of
such a call after `k` bytes of the entry, or dies between two calls. -/
inductive Event
  | openAt (order : IterOrder ChunkHash)
  | call (op : Op)
  | crashDuring (op : Op) (k : ℕ)
  | crash

/-- One event. Calls without a running process do not happen. -/
def Sys.step (s : Sys) : Event → Sys
  | .openAt order =>
    let (c, content) := PersistentChunkCache.openAt order s.disk
    { s with disk := some content, live := some c }
  | .call op =>
    match s.live, s.disk with
    | some c, some content =>
      let (c', content') := c.call content op
      { disk := some content', live := some c'
        written := if c.Writes op then s.written ++ [op] else s.written }
    | _, _ => s
  | .crashDuring op k =>
    match s.live, s.disk with
    | some c, some content =>
      { disk := some (if c.Writes op then (c.file.write content (op.entry.val.take k)).2
          else content)
        live := none
        written := if c.Writes op ∧ 33 ≤ k then s.written ++ [op] else s.written }
    | _, _ => s
  | .crash => { s with live := none }

/-- Consistency in a state: the next `open` holds exactly what the completely written mutations
leave, so every hash it reports was inserted. -/
def Sys.Consistent (s : Sys) : Prop :=
  ∀ order, (PersistentChunkCache.openAt order s.disk).1.known = applyOps s.written ∧
    ∀ id, (PersistentChunkCache.openAt order s.disk).1.contains id = true →
      Op.insert id ∈ s.written

/-- The event does not append behind a partial entry: when it writes, the log is a whole number of
entries. -/
def Sys.AppendsAligned (s : Sys) : Event → Prop
  | .call op | .crashDuring op _ =>
    ∀ c ∈ s.live, ∀ content ∈ s.disk, c.Writes op → 33 ∣ content.length
  | _ => True

/-- The invariant of runs without an append behind a torn entry: the log loads as the result of
the written mutations, and an open cache holds that set with its handle at the end. -/
structure Sys.Inv (s : Sys) : Prop where
  /-- The log loads as the result of the written mutations. -/
  load_eq : (load s.disk).1 = applyOps s.written
  /-- An open cache has a log, holds its set, and appends at its end. -/
  live_eq : ∀ c ∈ s.live, ∃ content, s.disk = some content ∧ c.known = applyOps s.written ∧
    c.file.AtEnd content

/-- One more mutation is applied last. -/
theorem applyOps_append (ops : List Op) (op : Op) :
    applyOps (ops ++ [op]) = op.apply (applyOps ops) := by
  simp [applyOps]

/-- A hash in the result of a sequence of mutations was inserted by one of them. -/
theorem insert_mem_of_mem_applyOps {ops : List Op} {id : ChunkHash} (h : id ∈ applyOps ops) :
    Op.insert id ∈ ops := by
  induction ops using List.reverseRecOn with
  | nil => simp [applyOps] at h
  | append_singleton ops op ih =>
    rw [applyOps_append] at h
    cases op with
    | insert a =>
      rcases Finset.mem_insert.mp h with rfl | h
      · simp
      · exact List.mem_append_left _ (ih h)
    | remove a => exact List.mem_append_left _ (ih (Finset.mem_of_mem_erase h))

/-- `open` keeps the invariant, compacting or not. -/
theorem Sys.Inv.openAt {s : Sys} (h : s.Inv) (order : IterOrder ChunkHash) :
    (s.step (.openAt order)).Inv := by
  obtain ⟨h1, h2, h3⟩ := openAt_known order s.disk
  refine ⟨?_, ?_⟩
  · simpa [Sys.step] using h2.trans h.load_eq
  · intro c hc
    obtain rfl : (PersistentChunkCache.openAt order s.disk).1 = c := by simpa [Sys.step] using hc
    exact ⟨_, rfl, h1.trans h.load_eq, h3⟩

/-- A call on an aligned log keeps the invariant. -/
theorem Sys.Inv.call {s : Sys} (h : s.Inv) {op : Op} (ok : s.AppendsAligned (.call op)) :
    (s.step (.call op)).Inv := by
  cases hl : s.live with
  | none => simpa [Sys.step, hl] using h
  | some c =>
    obtain ⟨content, hd, hk, hend⟩ := h.live_eq c hl
    have hload := h.load_eq
    rw [hd] at hload
    by_cases hw : c.Writes op
    · obtain ⟨hcontent, hend'⟩ := hend.write op.entry.val
      have halign : 33 ∣ content.length := ok c hl content hd hw
      refine ⟨?_, ?_⟩
      · simp [Sys.step, hl, hd, hw, call_of_writes hw, hcontent, load_append_entry halign, hload,
          applyOps_append]
      · simp [Sys.step, hl, hd, hw, call_of_writes hw, hcontent, hend', hk, applyOps_append]
    · refine ⟨?_, ?_⟩
      · simpa [Sys.step, hl, hd, hw, call_of_not_writes hw] using hload
      · simpa [Sys.step, hl, hd, hw, call_of_not_writes hw] using ⟨hk, hend⟩

/-- A crash inside an append to an aligned log keeps the invariant: the mutation counts when its
entry was completely written. -/
theorem Sys.Inv.crashDuring {s : Sys} (h : s.Inv) {op : Op} {k : ℕ}
    (ok : s.AppendsAligned (.crashDuring op k)) : (s.step (.crashDuring op k)).Inv := by
  cases hl : s.live with
  | none => simpa [Sys.step, hl] using h
  | some c =>
    obtain ⟨content, hd, hk, hend⟩ := h.live_eq c hl
    have hload := h.load_eq
    rw [hd] at hload
    refine ⟨?_, by simp [Sys.step, hl, hd]⟩
    -- A call that writes nothing cannot tear.
    by_cases hw : c.Writes op
    · obtain ⟨hcontent, -⟩ := hend.write (op.entry.val.take k)
      have halign : 33 ∣ content.length := ok c hl content hd hw
      rcases lt_or_ge k 33 with hk33 | hk33
      · have htorn : (op.entry.val.take k).length < 33 := by simp; omega
        simp [Sys.step, hl, hd, hw, hcontent, load_append_torn halign htorn, Nat.not_le.mpr hk33,
          hload]
      · rw [List.take_of_length_le (by simpa using hk33)] at hcontent
        simp [Sys.step, hl, hd, hw, hk33, hcontent, load_append_entry halign, hload,
          applyOps_append, List.take_of_length_le]
    · simpa [Sys.step, hl, hd, hw] using hload

/-- Every event that does not append behind a torn entry keeps the invariant. -/
theorem Sys.Inv.step (s : Sys) (e : Event) (h : s.Inv) (ok : s.AppendsAligned e) :
    (s.step e).Inv := by
  cases e with
  | openAt order => exact h.openAt order
  | call op => exact h.call ok
  | crashDuring op k => exact h.crashDuring ok
  | crash => exact ⟨h.load_eq, by simp [Sys.step]⟩

/-- The invariant gives consistency. -/
theorem Sys.Inv.consistent {s : Sys} (h : s.Inv) : s.Consistent := by
  intro order
  have hknown : (PersistentChunkCache.openAt order s.disk).1.known = applyOps s.written :=
    (openAt_known order s.disk).1.trans h.load_eq
  refine ⟨hknown, ?_⟩
  intro id hid
  apply insert_mem_of_mem_applyOps
  rw [← hknown]
  simpa [contains] using hid

/-- Consistency of runs that never append behind a torn entry: in every state reached, the next
`open` holds exactly the result of the completely written mutations. -/
theorem consistent_of_aligned (es : List Event)
    (hes : Guarded Sys.step Sys.AppendsAligned Sys.init es) :
    (run Sys.step Sys.init es).Consistent := by
  have hinit : Sys.init.Inv := ⟨rfl, by simp [Sys.init]⟩
  exact (run_invariant Sys.Inv.step hes hinit).consistent

/-- Whether an event appends at the start of a record can be decided. -/
instance (s : Sys) : ∀ e, Decidable (s.AppendsAligned e)
  | .openAt _ | .crash => isTrue trivial
  | .call op | .crashDuring op _ =>
    inferInstanceAs (Decidable (∀ c ∈ s.live, ∀ content ∈ s.disk, c.Writes op →
      33 ∣ content.length))

/-- A run that crashes inside an entry and opens again without appending is guarded. -/
theorem consistent_of_aligned_crash :
    let order := IterOrder.some ChunkHash
    let es : List Event := [.openAt order, .call (.insert (Bytes.fill 32 7)),
      .crashDuring (.remove (Bytes.fill 32 7)) 20, .openAt order]
    Guarded Sys.step Sys.AppendsAligned Sys.init es ∧ (run Sys.step Sys.init es).Consistent :=
  ⟨by decide +kernel, consistent_of_aligned _ (by decide +kernel)⟩

/-! ## An append behind a torn entry -/

/-- A process dies one byte into the entry of an insert, and a second one, opening behind that
byte, inserts the all-zero hash. The next `open` holds neither what was written nor anything that
was ever inserted: it reads the torn tag, and the next tag as the first byte of the hash. -/
theorem torn_append_breaks_consistency :
    let order := IterOrder.some ChunkHash
    let s := run Sys.step Sys.init [.openAt order, .crashDuring (.insert (Bytes.fill 32 7)) 1,
      .openAt order, .call (.insert (Bytes.fill 32 0))]
    ¬ s.Consistent ∧ ∃ id, (openAt order s.disk).1.contains id = true ∧
      id ≠ Bytes.fill 32 7 ∧ id ≠ Bytes.fill 32 0 := by
  intro order s
  have hread : (openAt order s.disk).1.contains (Bytes.ofList 32 [1]) = true := by decide +kernel
  have hwritten : s.written = [.insert (Bytes.fill 32 0)] := by decide +kernel
  have h7 : Bytes.ofList 32 [1] ≠ Bytes.fill 32 7 := by decide
  have h0 : Bytes.ofList 32 [1] ≠ Bytes.fill 32 0 := by decide
  refine ⟨?_, Bytes.ofList 32 [1], hread, h7, h0⟩
  intro hc
  have hmem := (hc order).2 _ hread
  rw [hwritten, List.mem_singleton, Op.insert.injEq] at hmem
  exact h0 hmem

end PersistentChunkCache

end LowBand.Xfer
