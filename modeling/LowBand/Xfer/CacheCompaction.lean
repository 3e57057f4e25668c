import LowBand.Xfer.PersistentCache

/-!
# Compaction of the chunk cache log

A log stands for the mutations that its complete records name (`recordOps`), and the set it means is
the last-writer-wins one: a hash is held when the last mutation that names it is an insert
(`LastWriterWins`). The replay computes that set (`load_some`, `mem_applyOps_iff`), and so does
every open and reopen, compacting or not.

What later calls do depends on where their entries land. Behind whole records each entry is read
back as its mutation, and a compacted log consists of whole records, so the cache follows the
history of all mutations as if the log had never been compacted (`compactionInvisible_of`). Behind a
partial record that no compaction removed, the next entry is read with a shifted frame
(`load_torn_append`), and there is always a mutation that gives the wrong set
(`exists_lost_mutation`).
-/

namespace LowBand.Xfer

open Lib

namespace PersistentChunkCache

/-! ## The set that a history of mutations means -/

/-- The hash that a mutation names. -/
def Op.id : Op → ChunkHash
  | .insert id => id
  | .remove id => id

/-- The last mutation that names the hash is an insert. -/
def LastWriterWins (ops : List Op) (id : ChunkHash) : Prop :=
  (ops.reverse.find? fun op => decide (op.id = id)) = some (.insert id)

/-- Applying the mutations in order leaves the last-writer-wins set. -/
theorem mem_applyOps_iff (ops : List Op) (id : ChunkHash) :
    id ∈ applyOps ops ↔ LastWriterWins ops id := by
  induction ops using List.reverseRecOn with
  | nil => simp [applyOps, LastWriterWins]
  | append_singleton ops op ih =>
    unfold LastWriterWins at ih ⊢
    rw [applyOps_append, List.reverse_append, List.reverse_singleton, List.singleton_append,
      List.find?_cons]
    by_cases hid : op.id = id
    · subst hid
      cases op with
      | insert a => simp [Op.apply, Op.id]
      | remove a => simp [Op.apply, Op.id]
    · simp only [hid, decide_false]
      rw [← ih]
      cases op with
      | insert a => simp [Op.apply, Ne.symm (show a ≠ id from hid)]
      | remove a => simp [Op.apply, Ne.symm (show a ≠ id from hid)]

/-- The mutation that a record names. -/
def recordOp (buf : Bytes 33) : Op :=
  let id : ChunkHash := Bytes.ofList 32 (buf.val.drop 1)
  if buf.val[0]? = some tagInsert then .insert id else .remove id

/-- The mutations that the complete records of a log name. -/
def recordOps (content : List UInt8) : List Op := (records 33 content).map recordOp

/-- The replay applies the mutation of each record. -/
theorem replayEntry_eq (acc : Finset ChunkHash × ℕ) (buf : Bytes 33) :
    replayEntry acc buf = ((recordOp buf).apply acc.1, acc.2 + 1) := by
  unfold replayEntry recordOp
  dsimp only
  split <;> rfl

/-- Replaying records applies their mutations and counts them. -/
theorem foldl_replayEntry_eq (bufs : List (Bytes 33)) (acc : Finset ChunkHash × ℕ) :
    bufs.foldl replayEntry acc
      = ((bufs.map recordOp).foldl Op.apply acc.1, acc.2 + bufs.length) := by
  induction bufs generalizing acc with
  | nil => rfl
  | cons buf bufs ih =>
    rw [List.foldl_cons, replayEntry_eq, ih, List.map_cons, List.foldl_cons, List.length_cons,
      Nat.add_assoc, Nat.add_comm 1]

/-- The replay of a log gives the set of its mutations and their number. -/
theorem load_some (content : List UInt8) :
    load (some content) = (applyOps (recordOps content), (recordOps content).length) := by
  unfold load recordOps applyOps
  simp only [foldl_replayEntry_eq, List.length_map, Nat.zero_add]

/-! ## Later opens and calls -/

/-- What happens to an open cache later: the log is opened again, or a mutation is called. -/
inductive Later
  | reopen (order : IterOrder ChunkHash)
  | call (op : Op)

/-- One later step on the open cache and its log. -/
def Later.step (s : PersistentChunkCache × List UInt8) : Later → PersistentChunkCache × List UInt8
  | .reopen order => openAt order (some s.2)
  | .call op => s.1.call s.2 op

/-- The mutation that a later step calls. -/
def Later.op? : Later → Option Op
  | .reopen _ => none
  | .call op => some op

/-- Compaction is invisible for a log: after its first open, and after any later opens and calls,
the open cache holds exactly the last-writer-wins set of the complete records followed by the
mutations called since. -/
def CompactionInvisible (content : List UInt8) : Prop :=
  ∀ (order : IterOrder ChunkHash) (steps : List Later) (id : ChunkHash),
    (run Later.step (openAt order (some content)) steps).1.contains id = true ↔
      LastWriterWins (recordOps content ++ steps.filterMap Later.op?) id

/-- `open` rewrites the log: there are more records than the threshold for the live set. -/
def OpenCompacts (content : List UInt8) : Prop :=
  compactionThreshold (load (some content)).1 < (load (some content)).2

/-- Whether opening a log compacts it can be decided. -/
instance (content : List UInt8) : Decidable (OpenCompacts content) :=
  inferInstanceAs (Decidable (_ < _))

/-- The open cache follows a history: it holds its set, the log is read back as that set and has
whole records only, and entries go to its end. -/
structure Follows (s : PersistentChunkCache × List UInt8) (ops : List Op) : Prop where
  /-- The cache holds the set. -/
  known_eq : s.1.known = applyOps ops
  /-- The log is read back as the set. -/
  load_eq : (load (some s.2)).1 = applyOps ops
  /-- The log has whole records only. -/
  aligned : 33 ∣ s.2.length
  /-- Entries go to the end of the log. -/
  atEnd : s.1.file.AtEnd s.2

/-- A snapshot has whole records only. -/
theorem dvd_length_compact (order : IterOrder ChunkHash) (live : Finset ChunkHash) :
    33 ∣ (compact order live).2.length := by
  refine ⟨(order.list live).length, ?_⟩
  simp [compact, List.length_flatMap, Nat.mul_comm]

/-- An open of whole records, or one that compacts, leaves whole records. -/
theorem dvd_length_openAt {order : IterOrder ChunkHash} {content : List UInt8}
    (h : 33 ∣ content.length ∨ OpenCompacts content) :
    33 ∣ (openAt order (some content)).2.length := by
  unfold openAt
  dsimp only
  split
  · exact dvd_length_compact order _
  · exact h.resolve_right ‹_›

/-- Such an open follows the history that the log stood for. -/
theorem follows_openAt (order : IterOrder ChunkHash) {content : List UInt8} {ops : List Op}
    (hload : (load (some content)).1 = applyOps ops)
    (h : 33 ∣ content.length ∨ OpenCompacts content) :
    Follows (openAt order (some content)) ops := by
  obtain ⟨hknown, hread, hend⟩ := openAt_known order (some content)
  exact ⟨hknown.trans hload, hread.trans hload, dvd_length_openAt h, hend⟩

/-- A mutation that does not write leaves the set as it is. -/
theorem apply_of_not_writes {c : PersistentChunkCache} {op : Op} (h : ¬ c.Writes op) :
    op.apply c.known = c.known := by
  cases op with
  | insert id => exact Finset.insert_eq_of_mem (not_not.mp h)
  | remove id => exact Finset.erase_eq_of_notMem h

/-- A later step extends the history by the mutation it calls. -/
theorem Follows.step {s : PersistentChunkCache × List UInt8} {ops : List Op} (h : Follows s ops)
    (later : Later) : Follows (later.step s) (ops ++ later.op?.toList) := by
  cases later with
  | reopen order =>
    rw [Later.op?, Option.toList_none, List.append_nil]
    exact follows_openAt order h.load_eq (Or.inl h.aligned)
  | call op =>
    rw [Later.op?, Option.toList_some]
    show Follows (s.1.call s.2 op) _
    -- A call that changes something is logged, any other is not.
    by_cases hw : s.1.Writes op
    · obtain ⟨hcontent, hend⟩ := h.atEnd.write op.entry.val
      rw [call_of_writes hw, hcontent]
      refine ⟨?_, ?_, ?_, hend⟩
      · rw [applyOps_append, h.known_eq]
      · rw [load_append_entry h.aligned, h.load_eq, applyOps_append]
      · rw [List.length_append, Bytes.length_val]
        exact Nat.dvd_add h.aligned (dvd_refl 33)
    · rw [call_of_not_writes hw]
      have happly : applyOps (ops ++ [op]) = applyOps ops := by
        rw [applyOps_append, ← h.known_eq, apply_of_not_writes hw]
      exact ⟨happly ▸ h.known_eq, happly ▸ h.load_eq, h.aligned, h.atEnd⟩

/-- Later steps extend the history by the mutations they call. -/
theorem Follows.run {s : PersistentChunkCache × List UInt8} {ops : List Op} (h : Follows s ops)
    (steps : List Later) :
    Follows (run Later.step s steps) (ops ++ steps.filterMap Later.op?) := by
  induction steps generalizing s ops with
  | nil => simpa using h
  | cons later steps ih =>
    have hnext := ih (h.step later)
    rw [run_cons, List.filterMap_cons]
    cases hop : later.op? with
    | none => simpa [hop] using hnext
    | some op => simpa [hop] using hnext

/-- A log of whole records, or one that the open compacts, makes compaction invisible. -/
theorem compactionInvisible_of {content : List UInt8}
    (h : 33 ∣ content.length ∨ OpenCompacts content) : CompactionInvisible content := by
  intro order steps id
  have hload : (load (some content)).1 = applyOps (recordOps content) := by rw [load_some]
  have hfollows := (follows_openAt order hload h).run steps
  unfold contains
  rw [decide_eq_true_eq, hfollows.known_eq, mem_applyOps_iff]

/-! ## An entry behind a partial record -/

/-- The hash of the record that a partial record and the start of the next entry make up. -/
def shiftedHash (t : List UInt8) (op : Op) : ChunkHash :=
  Bytes.ofList 32 ((t ++ op.entry.val.take (33 - t.length)).drop 1)

/-- The tag of the entry is read as a byte of the hash. -/
theorem shiftedHash_tag {t : List UInt8} (ht : 0 < t.length) (hlt : t.length < 33) (op : Op) :
    (shiftedHash t op).val[t.length - 1]? = op.entry.val[0]? := by
  have hlen : ((t ++ op.entry.val.take (33 - t.length)).drop 1).length = 32 := by
    simp
    omega
  unfold shiftedHash
  rw [Bytes.ofList_val hlen, List.getElem?_drop, List.getElem?_append_right (by omega),
    List.getElem?_take]
  have hindex : 1 + (t.length - 1) - t.length = 0 := by omega
  rw [hindex, if_pos (by omega)]

/-- Behind a partial record, the next entry is read with a shifted frame: the tag is the first byte
of the partial record. -/
theorem load_torn_append {a t : List UInt8} (ha : 33 ∣ a.length) (ht : 0 < t.length)
    (hlt : t.length < 33) (op : Op) :
    (load (some (a ++ t ++ op.entry.val))).1 =
      if t[0]? = some tagInsert then Insert.insert (shiftedHash t op) (load (some (a ++ t))).1
      else (load (some (a ++ t))).1.erase (shiftedHash t op) := by
  have hlen : (t ++ op.entry.val.take (33 - t.length)).length = 33 := by
    simp
    omega
  have hrest : (op.entry.val.drop (33 - t.length)).length < 33 := by
    simp
    omega
  -- The torn bytes take the front of the entry with them into one record.
  have hsplit : a ++ t ++ op.entry.val = a ++
      ((⟨t ++ op.entry.val.take (33 - t.length), hlen⟩ : Bytes 33).val
        ++ op.entry.val.drop (33 - t.length)) := by
    simp only [List.append_assoc, List.take_append_drop]
  have hread : records 33 (a ++ t ++ op.entry.val)
      = records 33 a ++ [⟨t ++ op.entry.val.take (33 - t.length), hlen⟩] := by
    rw [hsplit, records_append_of_dvd (by norm_num) _ _ ha, records_cons (by norm_num),
      records_of_length_lt hrest]
  have hbefore : records 33 (a ++ t) = records 33 a := records_append_torn (by norm_num) ha hlt
  have htag : (t ++ op.entry.val.take (33 - t.length))[0]? = t[0]? := List.getElem?_append_left ht
  unfold load
  simp only [hread, hbefore, List.foldl_append, List.foldl_cons, List.foldl_nil, replayEntry, htag]
  split <;> rfl

/-- Behind a partial record there is a mutation whose entry is not read back as the mutation: one
that names a hash which the shifted record cannot name. -/
theorem exists_lost_mutation {a t : List UInt8} (ha : 33 ∣ a.length) (ht : 0 < t.length)
    (hlt : t.length < 33) (c : PersistentChunkCache) (hc : c.known = (load (some (a ++ t))).1) :
    ∃ op, c.Writes op ∧ (load (some (a ++ t ++ op.entry.val))).1 ≠ op.apply c.known := by
  -- Reading a tag where the named hash has another byte keeps the two hashes apart.
  have hne : ∀ (b : UInt8) (op : Op), op.id = Bytes.fill 32 b → op.entry.val[0]? ≠ some b →
      shiftedHash t op ≠ op.id := by
    intro b op hid htag heq
    have hbyte := shiftedHash_tag ht hlt op
    rw [heq, hid] at hbyte
    apply htag
    rw [← hbyte]
    simp only [Bytes.fill]
    rw [List.getElem?_replicate, if_pos (by omega)]
  by_cases hfirst : t[0]? = some tagInsert
  · by_cases hmem : Bytes.fill 32 0 ∈ c.known
    · refine ⟨.remove (Bytes.fill 32 0), hmem, fun h => ?_⟩
      rw [load_torn_append ha ht hlt, if_pos hfirst, ← hc] at h
      have hin : Bytes.fill 32 0 ∈ Op.apply c.known (.remove (Bytes.fill 32 0)) :=
        h ▸ Finset.mem_insert_of_mem hmem
      exact Finset.notMem_erase _ _ hin
    · refine ⟨.insert (Bytes.fill 32 0), hmem, fun h => ?_⟩
      rw [load_torn_append ha ht hlt, if_pos hfirst, ← hc] at h
      have hin : Bytes.fill 32 0 ∈
          Insert.insert (shiftedHash t (.insert (Bytes.fill 32 0))) c.known :=
        h ▸ Finset.mem_insert_self _ _
      rcases Finset.mem_insert.mp hin with heq | hknown
      · exact hne 0 (.insert (Bytes.fill 32 0)) rfl (by simp [Op.entry, entryBuf, tagInsert])
          heq.symm
      · exact hmem hknown
  · by_cases hmem : Bytes.fill 32 1 ∈ c.known
    · refine ⟨.remove (Bytes.fill 32 1), hmem, fun h => ?_⟩
      rw [load_torn_append ha ht hlt, if_neg hfirst, ← hc] at h
      have hin : Bytes.fill 32 1 ∈ c.known.erase (shiftedHash t (.remove (Bytes.fill 32 1))) := by
        refine Finset.mem_erase.mpr ⟨fun heq => ?_, hmem⟩
        exact hne 1 (.remove (Bytes.fill 32 1)) rfl (by simp [Op.entry, entryBuf, tagRemove])
          heq.symm
      rw [h] at hin
      exact Finset.notMem_erase _ _ hin
    · refine ⟨.insert (Bytes.fill 32 1), hmem, fun h => ?_⟩
      rw [load_torn_append ha ht hlt, if_neg hfirst, ← hc] at h
      have hin : Bytes.fill 32 1 ∈ c.known.erase (shiftedHash t (.insert (Bytes.fill 32 1))) :=
        h ▸ Finset.mem_insert_self _ _
      exact hmem (Finset.mem_of_mem_erase hin)

/-- An open that does not compact leaves the log as it is and appends to it. -/
theorem openAt_of_not_compacts (order : IterOrder ChunkHash) {content : List UInt8}
    (h : ¬ OpenCompacts content) :
    openAt order (some content)
      = (⟨(load (some content)).1, .append, (load (some content)).2⟩, content) := by
  unfold openAt
  exact if_neg h

/-- When compaction is invisible for a log that the open does not compact, every entry written next
is read back as its mutation. -/
theorem CompactionInvisible.load_append {content : List UInt8} (h : CompactionInvisible content)
    (hkeep : ¬ OpenCompacts content) (c : PersistentChunkCache)
    (hc : c.known = (load (some content)).1) {op : Op} (hw : c.Writes op) :
    (load (some (content ++ op.entry.val))).1 = op.apply c.known := by
  let order := IterOrder.some ChunkHash
  have hwrites : (openAt order (some content)).1.Writes op := by
    rw [openAt_of_not_compacts order hkeep]
    cases op with
    | insert id => exact fun hmem => hw (hc ▸ hmem)
    | remove id => exact hc ▸ hw
  have hlog : ((openAt order (some content)).1.call (openAt order (some content)).2 op).2
      = content ++ op.entry.val := by
    rw [call_of_writes hwrites, openAt_of_not_compacts order hkeep]
    rfl
  -- The run in question: one call, and the log is opened again.
  have hknown : (run Later.step (openAt order (some content)) [.call op, .reopen order]).1.known
      = (load (some (content ++ op.entry.val))).1 := by
    rw [run_cons, run_cons, run_nil, Later.step, Later.step, hlog]
    exact (openAt_known order (some (content ++ op.entry.val))).1
  ext id
  have hspec := h order [.call op, .reopen order] id
  unfold contains at hspec
  rw [decide_eq_true_eq, hknown, ← mem_applyOps_iff] at hspec
  rw [hspec, hc, load_some]
  exact iff_of_eq (congrArg (id ∈ ·) (applyOps_append (recordOps content) op))

/-- Compaction is invisible for a log if and only if the log has whole records only or the open
compacts it. -/
theorem compactionInvisible_iff (content : List UInt8) :
    CompactionInvisible content ↔ 33 ∣ content.length ∨ OpenCompacts content := by
  refine ⟨fun h => ?_, compactionInvisible_of⟩
  by_contra hcond
  obtain ⟨halign, hkeep⟩ := not_or.mp hcond
  obtain ⟨a, t, rfl, ha, ht, hlt⟩ : ∃ a t, content = a ++ t ∧ 33 ∣ a.length ∧ 0 < t.length ∧
      t.length < 33 := by
    refine ⟨content.take (content.length / 33 * 33), content.drop (content.length / 33 * 33),
      (List.take_append_drop _ _).symm, ?_, ?_, ?_⟩
    · rw [List.length_take, min_eq_left (Nat.div_mul_le_self _ _)]
      exact Nat.dvd_mul_left _ _
    · rw [List.length_drop]
      omega
    · rw [List.length_drop]
      omega
  let c := (openAt (IterOrder.some ChunkHash) (some (a ++ t))).1
  have hc : c.known = (load (some (a ++ t))).1 := (openAt_known _ _).1
  obtain ⟨op, hw, hlost⟩ := exists_lost_mutation ha ht hlt c hc
  exact hlost (h.load_append hkeep c hc hw)

/-- The log of a single tag byte, which no open compacts: the insert of the zero hash is read back
as the insert of a hash that starts with the tag. -/
theorem not_compactionInvisible : ¬ CompactionInvisible [tagInsert] := by
  intro h
  let order := IterOrder.some ChunkHash
  have hread := h order [.call (.insert (Bytes.fill 32 0)), .reopen order] (Bytes.fill 32 0)
  have hlast : LastWriterWins
      (recordOps [tagInsert] ++ [Op.insert (Bytes.fill 32 0)]) (Bytes.fill 32 0) := by
    unfold LastWriterWins
    decide +kernel
  have hmissing : (run Later.step (openAt order (some [tagInsert]))
      [.call (.insert (Bytes.fill 32 0)), .reopen order]).1.contains (Bytes.fill 32 0) = false := by
    decide +kernel
  exact Bool.false_ne_true (hmissing.symm.trans (hread.mpr hlast))

end PersistentChunkCache

end LowBand.Xfer
