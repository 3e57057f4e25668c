import Mathlib.Data.Finset.Insert
import Mathlib.Data.Finset.Card
import Mathlib.Data.Finset.Range
import LowBand.Lib.RecordLog
import LowBand.Lib.FileBytes
import LowBand.Lib.Run

/-!
# Transfer resume state

`ResumableTransfer` of `core/xfer/src/resume.rs` keeps the progress of one object transfer in a
state file: a header that repeats the manifest, then one 4-byte little-endian chunk index per
delivered chunk, appended as chunks are delivered and replayed on open. The model passes the
file's content explicitly: an operation that writes returns the new content.

Crash safety is about runs of one manifest on one state file, in which the process may die inside
the append of a progress entry. `open` appends behind whatever such a crash left, so a torn entry
shifts the framing of every entry written after it: `torn_append_breaks_crash_safety` is a run that
both loses a written entry and reports a chunk that was never delivered. `crash_safe_of_aligned` is
the converse bound: as long as no entry is appended behind a torn one, the progress that `open`
reads is exactly the set of completely written entries.
-/

namespace LowBand.Xfer

open Lib

/-- A 32-byte BLAKE3 digest. -/
abbrev ChunkHash := Bytes 32

/-- The ordered chunk ids of an object and its size, a 64-bit `usize`. -/
structure TransferManifest where
  /-- Chunk ids in file order. -/
  chunkIds : List ChunkHash
  /-- Size of the object in bytes. -/
  totalBytes : ℕ
  /-- The size is a `usize`. -/
  totalBytes_lt : totalBytes < 2 ^ 64
deriving DecidableEq

/-- Number of chunks in the manifest. -/
def TransferManifest.chunkCount (m : TransferManifest) : ℕ := m.chunkIds.length

/-- `MAGIC`, the bytes `LBXR`. -/
def magic : List UInt8 := [0x4c, 0x42, 0x58, 0x52]

/-- `VERSION` of the state file. -/
def version : UInt8 := 1

/-- The errors of the I/O calls that the modelled code makes. -/
inductive IoError
  | unexpectedEof
  | invalidInput
  | notFound
deriving DecidableEq

/-- Outcome of opening a state file. -/
inductive OpenOutcome
  | fresh
  | resumed (delivered : ℕ)
deriving DecidableEq

/-- Persistent progress of one transfer. `delivered` is a set of `u32` indices, and `file` is the
open state file. -/
structure ResumableTransfer where
  /-- The object being transferred. -/
  manifest : TransferManifest
  /-- Indices of the delivered chunks. -/
  delivered : Finset ℕ
  /-- The handle that progress entries are written through. -/
  file : Handle
deriving DecidableEq

/-! ## The state file -/

/-- The first 17 bytes of the state file: magic, version, `chunk_count as u32`, and
`total_bytes as u64`. -/
def fixedHeader (m : TransferManifest) : Bytes 17 :=
  ⟨magic ++ [version] ++ leBytes 4 m.chunkCount ++ leBytes 8 m.totalBytes, by simp [magic]⟩

/-- Everything `create` writes. -/
def headerBytes (m : TransferManifest) : List UInt8 :=
  (fixedHeader m).val ++ m.chunkIds.flatMap Bytes.val

/-- `create`: truncate the file and write the header, leaving the cursor behind it. -/
def create (m : TransferManifest) : Handle × List UInt8 :=
  (.cursor (headerBytes m).length, headerBytes m)

/-- The loop of `load` over the manifest's ids: what follows them, or `none` at the first id that
differs. -/
def readIds : List ChunkHash → List UInt8 → Except IoError (Option (List UInt8))
  | [], r => .ok (some r)
  | expected :: ids, r =>
    match readExact 32 r with
    | none => .error .unexpectedEof
    | some (id, rest) => if id ≠ expected then .ok none else readIds ids rest

/-- One progress entry: its index joins the delivered set unless it is out of range. -/
def replayEntry (chunkCount : ℕ) (delivered : Finset ℕ) (entry : Bytes 4) : Finset ℕ :=
  if ofLE entry.val < chunkCount then insert (ofLE entry.val) delivered else delivered

/-- The progress loop of `load`: replay complete entries until the end of the file. -/
def replay (chunkCount : ℕ) (progress : List UInt8) : Finset ℕ :=
  (records 4 progress).foldl (replayEntry chunkCount) ∅

/-- `load`: the delivered set when the file holds state for exactly this manifest, `none` when it
is absent or belongs to another one. -/
def load (disk : Option (List UInt8)) (m : TransferManifest) :
    Except IoError (Option (Finset ℕ)) :=
  match disk with
  | none => .ok none
  | some content =>
    match readExact 17 content with
    | none => .error .unexpectedEof
    | some (header, rest) =>
      if header.val.take 4 ≠ magic ∨ header.val[4]? ≠ some version then .ok none
      else
        let chunkCount := ofLE ((header.val.drop 5).take 4)
        let totalBytes := ofLE ((header.val.drop 9).take 8)
        if chunkCount ≠ m.chunkCount ∨ totalBytes ≠ m.totalBytes then .ok none
        else
          match readIds m.chunkIds rest with
          | .error e => .error e
          | .ok none => .ok none
          | .ok (some progress) => .ok (some (replay chunkCount progress))

/-! ## Operations -/

/-- `open`: resume when `load` finds matching state, else start a fresh file. Returns the transfer,
the outcome, and the content of the state file. -/
def ResumableTransfer.openAt (disk : Option (List UInt8)) (m : TransferManifest) :
    ResumableTransfer × OpenOutcome × List UInt8 :=
  match load disk m with
  | .ok (some delivered) =>
    (⟨m, delivered, .append⟩, .resumed delivered.card, disk.getD [])
  | _ =>
    let (file, content) := create m
    (⟨m, ∅, file⟩, .fresh, content)

/-- Whether `mark_delivered index` writes an entry: the index is in range and not recorded yet. -/
def ResumableTransfer.Appends (t : ResumableTransfer) (index : ℕ) : Prop :=
  index < t.manifest.chunkCount ∧ asU32 index ∉ t.delivered

/-- Whether a mark is appended can be decided. -/
instance (t : ResumableTransfer) (index : ℕ) : Decidable (t.Appends index) :=
  inferInstanceAs (Decidable (_ ∧ _))

/-- `mark_delivered`: idempotent, ignores indices out of range, and appends the index as a `u32`. -/
def ResumableTransfer.markDelivered (t : ResumableTransfer) (disk : List UInt8) (index : ℕ) :
    ResumableTransfer × List UInt8 :=
  if t.manifest.chunkCount ≤ index then (t, disk)
  else
    let i := asU32 index
    if i ∈ t.delivered then (t, disk)
    else
      let (file, disk) := t.file.write disk (leBytes 4 i)
      ({ t with delivered := insert i t.delivered, file := file }, disk)

/-- The state file when the process dies inside `mark_delivered index`, with `k` bytes of the
entry written. -/
def ResumableTransfer.tornMark (t : ResumableTransfer) (disk : List UInt8) (index k : ℕ) :
    List UInt8 :=
  if t.Appends index then (t.file.write disk ((leBytes 4 (asU32 index)).take k)).2 else disk

/-- Manifest positions still awaiting delivery, in file order. -/
def ResumableTransfer.remaining (t : ResumableTransfer) : List ℕ :=
  (List.range t.manifest.chunkCount).filter fun i => asU32 i ∉ t.delivered

/-- Number of chunks already delivered. -/
def ResumableTransfer.deliveredCount (t : ResumableTransfer) : ℕ := t.delivered.card

/-- Every chunk is delivered. -/
def ResumableTransfer.isComplete (t : ResumableTransfer) : Bool :=
  t.delivered.card == t.manifest.chunkCount

/-- `finish`: remove the state file, after every chunk is delivered. The result is the state file
afterwards. -/
def ResumableTransfer.finish (t : ResumableTransfer) (disk : Option (List UInt8)) :
    Except IoError Unit × Option (List UInt8) :=
  if !t.isComplete then (.error .invalidInput, disk)
  else
    match disk with
    | none => (.error .notFound, none)
    | some _ => (.ok (), none)

/-- `mark_delivered` of an index that is written: the set grows and the entry goes to the file. -/
theorem ResumableTransfer.markDelivered_of_appends {t : ResumableTransfer} {disk : List UInt8}
    {index : ℕ} (h : t.Appends index) :
    t.markDelivered disk index =
      ({ t with
          delivered := insert (asU32 index) t.delivered
          file := (t.file.write disk (leBytes 4 (asU32 index))).1 },
        (t.file.write disk (leBytes 4 (asU32 index))).2) := by
  simp [markDelivered, Nat.not_le.mpr h.1, h.2]

/-- `mark_delivered` of any other index does nothing. -/
theorem ResumableTransfer.markDelivered_of_not_appends {t : ResumableTransfer}
    {disk : List UInt8} {index : ℕ} (h : ¬ t.Appends index) :
    t.markDelivered disk index = (t, disk) := by
  unfold markDelivered
  split
  · rfl
  · next hlt =>
    have : asU32 index ∈ t.delivered := by
      by_contra hn
      exact h ⟨Nat.not_le.mp hlt, hn⟩
    simp [this]

/-- `remaining` lists the indices in range that are not recorded. -/
theorem ResumableTransfer.mem_remaining {t : ResumableTransfer} {i : ℕ} :
    i ∈ t.remaining ↔ t.Appends i := by
  simp [remaining, Appends]

/-! ## Reading back what was written -/

/-- The ids that `create` wrote are accepted, and the reader stops behind them. -/
theorem readIds_flatMap (ids : List ChunkHash) (p : List UInt8) :
    readIds ids (ids.flatMap Bytes.val ++ p) = .ok (some p) := by
  induction ids with
  | nil => rfl
  | cons id ids ih =>
    rw [List.flatMap_cons, List.append_assoc, readIds, readExact_append]
    simpa using ih

/-- `load` on a file that starts with the manifest's own header replays what follows it, when the
chunk count survives its cast to `u32`. -/
theorem load_headerBytes (m : TransferManifest) (hm : m.chunkCount < 2 ^ 32) (p : List UInt8) :
    load (some (headerBytes m ++ p)) m = .ok (some (replay m.chunkCount p)) := by
  have hcount : m.chunkCount % 256 ^ 4 = m.chunkCount := Nat.mod_eq_of_lt hm
  have htotal : m.totalBytes % 256 ^ 8 = m.totalBytes := Nat.mod_eq_of_lt m.totalBytes_lt
  have h5 : ((fixedHeader m).val.drop 5).take 4 = leBytes 4 m.chunkCount := by
    simp [fixedHeader, magic]
  have h9 : ((fixedHeader m).val.drop 9).take 8 = leBytes 8 m.totalBytes := by
    simp [fixedHeader, magic]
  have h4 : (fixedHeader m).val.take 4 = magic ∧ (fixedHeader m).val[4]? = some version := by
    simp [fixedHeader, magic]
  rw [headerBytes, List.append_assoc, load]
  simp only [readExact_append, h4, h5, h9, ofLE_leBytes, hcount, htotal, ne_eq, not_true_eq_false,
    or_self, if_false, readIds_flatMap]

/-- The entry for `index` as a record. -/
def entryOf (index : ℕ) : Bytes 4 := ⟨leBytes 4 index, length_leBytes 4 index⟩

/-- Behind an aligned progress section, one written entry adds its index. -/
theorem replay_append_entry {n index : ℕ} {p : List UInt8} (hp : 4 ∣ p.length)
    (hi : index < n) (h32 : index < 2 ^ 32) :
    replay n (p ++ leBytes 4 index) = insert index (replay n p) := by
  have hrec := records_append_record (by norm_num) hp (entryOf index)
  unfold replay
  rw [show p ++ leBytes 4 index = p ++ (entryOf index).val from rfl, hrec, List.foldl_append]
  simp [replayEntry, entryOf, -ofLE_leBytes, ofLE_leBytes_four, asU32_of_lt h32, hi]

/-- Behind an aligned progress section, a torn entry adds nothing. -/
theorem replay_append_torn {n index k : ℕ} {p : List UInt8} (hp : 4 ∣ p.length) (hk : k < 4) :
    replay n (p ++ (leBytes 4 index).take k) = replay n p := by
  unfold replay
  rw [records_append_torn (by norm_num) hp (by simp; omega)]

/-- Replay only records indices in range. -/
theorem replay_subset (n : ℕ) (p : List UInt8) : replay n p ⊆ Finset.range n := by
  have key : ∀ (es : List (Bytes 4)) (d : Finset ℕ), d ⊆ Finset.range n →
      es.foldl (replayEntry n) d ⊆ Finset.range n := by
    intro es
    induction es with
    | nil => exact fun d hd => hd
    | cons e es ih =>
      intro d hd
      apply ih
      unfold replayEntry
      split
      · next h => exact Finset.insert_subset (Finset.mem_range.mpr h) hd
      · exact hd
  exact key _ ∅ (Finset.empty_subset _)

/-- `load` resumes only for a chunk count that the header's `u32` holds, and only what it
replays. -/
theorem load_eq_some {disk : Option (List UInt8)} {m : TransferManifest} {d : Finset ℕ}
    (h : load disk m = .ok (some d)) :
    m.chunkCount < 2 ^ 32 ∧ ∃ progress, d = replay m.chunkCount progress := by
  -- Each check that fails ends in an error or in nothing.
  unfold load at h
  split at h
  · simp at h
  · split at h
    · simp at h
    · next header rest _ =>
      split at h
      · simp at h
      · -- The count in the header is a `u32`, and it is compared with that of the manifest.
        have hlt := ofLE_lt ((header.val.drop 5).take 4)
        have hlen : ((header.val.drop 5).take 4).length = 4 := by simp
        rw [hlen] at hlt
        dsimp only at h
        split at h
        · simp at h
        · next heq =>
          simp only [not_or, not_not] at heq
          rw [heq.1] at h hlt
          refine ⟨hlt, ?_⟩
          split at h
          · simp at h
          · simp at h
          · next progress _ =>
            exact ⟨progress, by simpa using h.symm⟩
/-- `open` returns a transfer of the manifest, with recorded indices in range. -/
theorem openAt_spec (disk : Option (List UInt8)) (m : TransferManifest) :
    (ResumableTransfer.openAt disk m).1.manifest = m ∧
      (ResumableTransfer.openAt disk m).1.delivered ⊆ Finset.range m.chunkCount := by
  unfold ResumableTransfer.openAt
  split
  · next d h =>
    obtain ⟨-, progress, rfl⟩ := load_eq_some h
    exact ⟨rfl, replay_subset _ _⟩
  · exact ⟨rfl, Finset.empty_subset _⟩

/-! ## Runs with crashes -/

/-- One state file and the process that may have it open, with the history of the calls:
`marked` are the indices passed to `mark_delivered` so far, `written` those whose entry was
completely written. -/
structure Sys where
  /-- Content of the state file. -/
  disk : Option (List UInt8)
  /-- The open transfer, when a process runs. -/
  live : Option ResumableTransfer
  /-- Indices passed to `mark_delivered` in any run so far. -/
  marked : Finset ℕ
  /-- Indices whose entry was completely written. -/
  written : Finset ℕ
deriving DecidableEq

/-- No state file yet, and no process. -/
def Sys.init : Sys := ⟨none, none, ∅, ∅⟩

/-- What can happen: a process opens the state file, marks a chunk, dies inside the append of
`mark_delivered index` after `k` bytes of the entry, or dies between two calls. -/
inductive Event
  | openAt
  | markDelivered (index : ℕ)
  | crashDuring (index k : ℕ)
  | crash
deriving DecidableEq

/-- One event, for the transfer of `m`. Calls without a running process do not happen. -/
def Sys.step (m : TransferManifest) (s : Sys) : Event → Sys
  | .openAt =>
    let (t, _, content) := ResumableTransfer.openAt s.disk m
    { s with disk := some content, live := some t }
  | .markDelivered index =>
    match s.live, s.disk with
    | some t, some content =>
      let (t', content') := t.markDelivered content index
      { disk := some content', live := some t', marked := insert index s.marked
        written := if t.Appends index then insert index s.written else s.written }
    | _, _ => s
  | .crashDuring index k =>
    match s.live, s.disk with
    | some t, some content =>
      { disk := some (t.tornMark content index k), live := none, marked := insert index s.marked
        written := if t.Appends index ∧ 4 ≤ k then insert index s.written else s.written }
    | _, _ => s
  | .crash => { s with live := none }

/-- Crash safety in a state: whatever the next `open` reports as delivered was passed to
`mark_delivered`, and whatever was completely written is reported. -/
def Sys.CrashSafe (m : TransferManifest) (s : Sys) : Prop :=
  (∀ i ∈ (ResumableTransfer.openAt s.disk m).1.delivered, i ∈ s.marked) ∧
    ∀ i ∈ s.written, i ∈ (ResumableTransfer.openAt s.disk m).1.delivered

/-- The event does not append an entry behind a partial one: when it writes, the progress section
of the state file is a whole number of entries. -/
def Sys.AppendsAligned (m : TransferManifest) (s : Sys) : Event → Prop
  | .markDelivered index | .crashDuring index _ =>
    ∀ t ∈ s.live, ∀ content ∈ s.disk, t.Appends index →
      4 ∣ content.length - (headerBytes m).length
  | _ => True

/-- The invariant of runs without an append behind a torn entry: the file is the header and a
progress section whose replay is the set of written entries, all of them marked, and an open
transfer holds that same set with its handle at the end. -/
def Sys.Inv (m : TransferManifest) (s : Sys) : Prop :=
  (s.disk = none ∧ s.live = none ∧ s.written = ∅) ∨
    ∃ p, s.disk = some (headerBytes m ++ p) ∧ replay m.chunkCount p = s.written ∧
      s.written ⊆ s.marked ∧
      ∀ t ∈ s.live, t.manifest = m ∧ t.delivered = s.written ∧
        t.file.AtEnd (headerBytes m ++ p)

/-- Opening a file that holds the manifest's header resumes with its replayed progress. -/
theorem openAt_headerBytes (m : TransferManifest) (hm : m.chunkCount < 2 ^ 32) (p : List UInt8) :
    ResumableTransfer.openAt (some (headerBytes m ++ p)) m =
      (⟨m, replay m.chunkCount p, .append⟩, .resumed (replay m.chunkCount p).card,
        headerBytes m ++ p) := by
  simp [ResumableTransfer.openAt, load_headerBytes m hm p]

/-- Opening without a state file starts one with the header alone. -/
theorem openAt_none (m : TransferManifest) :
    ResumableTransfer.openAt none m =
      (⟨m, ∅, .cursor (headerBytes m).length⟩, .fresh, headerBytes m) := rfl

/-- `open` keeps the invariant. -/
theorem Sys.Inv.openAt {m : TransferManifest} (hm : m.chunkCount < 2 ^ 32) {s : Sys}
    (h : s.Inv m) : (s.step m .openAt).Inv m := by
  right
  rcases h with ⟨hd, hl, hw⟩ | ⟨p, hd, hr, hsub, -⟩
  · refine ⟨[], ?_, ?_, ?_, ?_⟩
    · simp [Sys.step, hd, openAt_none]
    · simp [Sys.step, hw, replay]
    · simp [Sys.step, hw]
    · simp [Sys.step, hd, hw, openAt_none, Handle.AtEnd]
  · refine ⟨p, ?_, ?_, ?_, ?_⟩
    · simp [Sys.step, hd, openAt_headerBytes m hm]
    · exact hr
    · exact hsub
    · simp [Sys.step, hd, openAt_headerBytes m hm, hr, Handle.AtEnd]

/-- `mark_delivered` that writes to an aligned file keeps the invariant. -/
theorem Sys.Inv.markDelivered {m : TransferManifest} (hm : m.chunkCount < 2 ^ 32) {s : Sys}
    {index : ℕ} (h : s.Inv m) (ok : s.AppendsAligned m (.markDelivered index)) :
    (s.step m (.markDelivered index)).Inv m := by
  -- Before the file is there nothing is marked.
  rcases h with ⟨hd, hl, hw⟩ | ⟨p, hd, hr, hsub, hlive⟩
  · exact .inl (by simp [Sys.step, hd, hl, hw])
  · right
    cases hl : s.live with
    | none => exact ⟨p, by simp [Sys.step, hl, hd, hr, hsub]⟩
    | some t =>
      obtain ⟨htm, htd, htf⟩ := hlive t hl
      by_cases ha : t.Appends index
      · -- The entry is written behind an aligned section and joins its replay.
        have hp : 4 ∣ p.length := by simpa using ok t hl _ hd ha
        have hlt : index < m.chunkCount := htm ▸ ha.1
        have hmod : asU32 index = index := asU32_of_lt (by omega)
        obtain ⟨hcontent, hend⟩ := htf.write (leBytes 4 index)
        refine ⟨p ++ leBytes 4 index, ?_, ?_, ?_, ?_⟩
        · simp [Sys.step, hl, hd, ResumableTransfer.markDelivered_of_appends ha, hmod, hcontent]
        · simp [Sys.step, hl, hd, ha, replay_append_entry hp hlt (by omega), hr]
        · simpa [Sys.step, hl, hd, ha] using Finset.insert_subset_insert index hsub
        · simpa [Sys.step, hl, hd, ha, ResumableTransfer.markDelivered_of_appends ha, hmod, htm,
            htd] using hend
      · refine ⟨p, ?_, ?_, ?_, ?_⟩
        · simp [Sys.step, hl, hd, ResumableTransfer.markDelivered_of_not_appends ha]
        · simp [Sys.step, hl, hd, ha, hr]
        · simpa [Sys.step, hl, hd, ha] using hsub.trans (Finset.subset_insert index s.marked)
        · simpa [Sys.step, hl, hd, ha, ResumableTransfer.markDelivered_of_not_appends ha]
            using ⟨htm, htd, htf⟩

/-- A crash inside an append to an aligned file keeps the invariant: the entry counts when all its
four bytes were written, and is invisible otherwise. -/
theorem Sys.Inv.crashDuring {m : TransferManifest} (hm : m.chunkCount < 2 ^ 32) {s : Sys}
    {index k : ℕ} (h : s.Inv m) (ok : s.AppendsAligned m (.crashDuring index k)) :
    (s.step m (.crashDuring index k)).Inv m := by
  -- Before the file is there nothing is marked.
  rcases h with ⟨hd, hl, hw⟩ | ⟨p, hd, hr, hsub, hlive⟩
  · exact .inl (by simp [Sys.step, hd, hl, hw])
  · right
    cases hl : s.live with
    | none => exact ⟨p, by simp [Sys.step, hl, hd, hr, hsub]⟩
    | some t =>
      obtain ⟨htm, htd, htf⟩ := hlive t hl
      by_cases ha : t.Appends index
      · have hp : 4 ∣ p.length := by simpa using ok t hl _ hd ha
        have hlt : index < m.chunkCount := htm ▸ ha.1
        have hmod : asU32 index = index := asU32_of_lt (by omega)
        obtain ⟨hcontent, -⟩ := htf.write ((leBytes 4 index).take k)
        refine ⟨p ++ (leBytes 4 index).take k, ?_, ?_, ?_, ?_⟩
        · simp [Sys.step, hl, hd, ResumableTransfer.tornMark, ha, hmod, hcontent]
        · -- A torn entry is not replayed, a whole one is.
          rcases lt_or_ge k 4 with hk | hk
          · simp [Sys.step, hl, hd, Nat.not_le.mpr hk, replay_append_torn hp hk, hr]
          · rw [List.take_of_length_le (by simpa using hk)]
            simp [Sys.step, hl, hd, ha, hk, replay_append_entry hp hlt (by omega), hr]
        · simp only [Sys.step, hl, hd]
          split
          · exact Finset.insert_subset_insert index hsub
          · exact hsub.trans (Finset.subset_insert index s.marked)
        · simp [Sys.step, hl, hd]
      · refine ⟨p, ?_, ?_, ?_, ?_⟩
        · simp [Sys.step, hl, hd, ResumableTransfer.tornMark, ha]
        · simp [Sys.step, hl, hd, ha, hr]
        · simpa [Sys.step, hl, hd, ha] using hsub.trans (Finset.subset_insert index s.marked)
        · simp [Sys.step, hl, hd]

/-- Every event that does not append behind a torn entry keeps the invariant. -/
theorem Sys.Inv.step {m : TransferManifest} (hm : m.chunkCount < 2 ^ 32) (s : Sys) (e : Event)
    (h : s.Inv m) (ok : s.AppendsAligned m e) : (s.step m e).Inv m := by
  cases e with
  | openAt => exact h.openAt hm
  | markDelivered index => exact h.markDelivered hm ok
  | crashDuring index k => exact h.crashDuring hm ok
  | crash =>
    rcases h with ⟨hd, hl, hw⟩ | ⟨p, hd, hr, hsub, -⟩
    · exact .inl ⟨hd, rfl, hw⟩
    · exact .inr ⟨p, hd, hr, hsub, by simp [Sys.step]⟩

/-- The invariant gives crash safety. -/
theorem Sys.Inv.crashSafe {m : TransferManifest} (hm : m.chunkCount < 2 ^ 32) {s : Sys}
    (h : s.Inv m) : s.CrashSafe m := by
  unfold Sys.CrashSafe
  rcases h with ⟨hd, -, hw⟩ | ⟨p, hd, hr, hsub, -⟩
  · simp [hd, hw, openAt_none]
  · rw [hd, openAt_headerBytes m hm, hr]
    exact ⟨fun i hi => hsub hi, fun i hi => hi⟩

/-- Crash safety of runs that never append behind a torn entry, for a manifest whose chunk count
fits in the header's `u32`: in every state reached, the next `open` reports only marked chunks and
all written ones. -/
theorem crash_safe_of_aligned (m : TransferManifest) (hm : m.chunkCount < 2 ^ 32)
    (es : List Event) (hes : Guarded (Sys.step m) (Sys.AppendsAligned m) Sys.init es) :
    (run (Sys.step m) Sys.init es).CrashSafe m := by
  have hinit : Sys.init.Inv m := .inl ⟨rfl, rfl, rfl⟩
  exact (run_invariant (Sys.Inv.step hm) hes hinit).crashSafe hm


/-- Whether an event appends at the start of an entry can be decided. -/
instance (m : TransferManifest) (s : Sys) : ∀ e, Decidable (s.AppendsAligned m e)
  | .openAt | .crash => isTrue trivial
  | .markDelivered index | .crashDuring index _ =>
    inferInstanceAs (Decidable (∀ t ∈ s.live, ∀ content ∈ s.disk, t.Appends index →
      4 ∣ content.length - (headerBytes m).length))

/-- A run that crashes two bytes into an entry and opens again without appending is guarded. -/
theorem crash_safe_of_aligned_two_chunks :
    let m : TransferManifest := ⟨List.replicate 2 (Bytes.fill 32 0), 2048, by decide⟩
    let es : List Event := [.openAt, .markDelivered 1, .crashDuring 0 2, .openAt]
    m.chunkCount < 2 ^ 32 ∧ Guarded (Sys.step m) (Sys.AppendsAligned m) Sys.init es ∧
      (run (Sys.step m) Sys.init es).CrashSafe m :=
  ⟨by decide, by decide +kernel, crash_safe_of_aligned _ (by decide) _ (by decide +kernel)⟩

/-! ## An append behind a torn entry -/

/-- A manifest with at least `2^32` chunks is never resumed: its header holds the count modulo
`2^32`, which `load` compares with the full count. -/
theorem openAt_of_count_ge {m : TransferManifest} (hm : 2 ^ 32 ≤ m.chunkCount)
    (disk : Option (List UInt8)) : (ResumableTransfer.openAt disk m).1.delivered = ∅ := by
  unfold ResumableTransfer.openAt
  split
  · next d h => exact absurd (load_eq_some h).1 (by omega)
  · rfl

/-- The state after a process dies one byte into the entry of chunk 257 and a second one, resuming
behind that byte, marks chunk 0. -/
theorem tornRun_state (m : TransferManifest) (hm : m.chunkCount = 258) :
    run (Sys.step m) Sys.init [.openAt, .crashDuring 257 1, .openAt, .markDelivered 0] =
      ⟨some (headerBytes m ++ [1, 0, 0, 0, 0]), some ⟨m, {0}, .append⟩, {0, 257}, {0}⟩ := by
  have hm32 : m.chunkCount < 2 ^ 32 := by omega
  -- The first process starts the file and dies one byte into the entry of chunk 257.
  have h1 : Sys.init.step m .openAt =
      ⟨some (headerBytes m), some ⟨m, ∅, .cursor (headerBytes m).length⟩, ∅, ∅⟩ := rfl
  have h2 : Sys.step m ⟨some (headerBytes m), some ⟨m, ∅, .cursor (headerBytes m).length⟩, ∅, ∅⟩
      (.crashDuring 257 1) = ⟨some (headerBytes m ++ [1]), none, {257}, ∅⟩ := by
    have ha : ResumableTransfer.Appends ⟨m, ∅, .cursor (headerBytes m).length⟩ 257 :=
      ⟨by simp [hm], by simp⟩
    have hb : (leBytes 4 (asU32 257)).take 1 = [1] := by decide
    simp [Sys.step, ResumableTransfer.tornMark, ha, hb, Handle.write, writeAt_length]
  -- The second one resumes behind the torn byte and appends the entry of chunk 0.
  have h3 : Sys.step m ⟨some (headerBytes m ++ [1]), none, {257}, ∅⟩ .openAt =
      ⟨some (headerBytes m ++ [1]), some ⟨m, ∅, .append⟩, {257}, ∅⟩ := by
    have hr : replay 258 [1] = ∅ := by decide
    simp [Sys.step, openAt_headerBytes m hm32, hm, hr]
  have h4 : Sys.step m ⟨some (headerBytes m ++ [1]), some ⟨m, ∅, .append⟩, {257}, ∅⟩
      (.markDelivered 0) =
      ⟨some (headerBytes m ++ [1, 0, 0, 0, 0]), some ⟨m, {0}, .append⟩, {0, 257}, {0}⟩ := by
    have ha : ResumableTransfer.Appends ⟨m, ∅, .append⟩ 0 := ⟨by simp [hm], by simp⟩
    have h0 : asU32 0 = 0 := rfl
    have hb : leBytes 4 0 = [0, 0, 0, 0] := by decide
    simp [Sys.step, ResumableTransfer.markDelivered_of_appends ha, ha, h0, hb, Handle.write]
  rw [run_cons, h1, run_cons, h2, run_cons, h3, run_cons, h4, run_nil]

/-- The run of `tornRun_state` on a concrete manifest of 258 chunks is not crash safe, on both
counts: the file now reads as an entry for chunk 1, which no process marked, and a partial one, so
that the written entry of chunk 0 is lost. -/
theorem torn_append_breaks_crash_safety :
    let m : TransferManifest := ⟨List.replicate 258 (Bytes.fill 32 0), 258 * 1024, by decide⟩
    let s := run (Sys.step m) Sys.init [.openAt, .crashDuring 257 1, .openAt, .markDelivered 0]
    ¬ s.CrashSafe m ∧ (∃ i ∈ (ResumableTransfer.openAt s.disk m).1.delivered, i ∉ s.marked) ∧
      ∃ i ∈ s.written, i ∉ (ResumableTransfer.openAt s.disk m).1.delivered := by
  intro m
  have hm : m.chunkCount = 258 := List.length_replicate
  have hr : replay 258 [1, 0, 0, 0, 0] = {1} := by decide
  rw [tornRun_state m hm]
  dsimp only
  rw [openAt_headerBytes m (by omega), hm, hr]
  have h1 : ∃ i ∈ ({1} : Finset ℕ), i ∉ ({0, 257} : Finset ℕ) := by decide
  have h2 : ∃ i ∈ ({0} : Finset ℕ), i ∉ ({1} : Finset ℕ) := by decide
  refine ⟨?_, h1, h2⟩
  unfold Sys.CrashSafe
  dsimp only
  rw [openAt_headerBytes m (by omega), hm, hr]
  decide

end LowBand.Xfer
