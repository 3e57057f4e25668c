import LowBand.Lib.Bytes
import LowBand.Lib.Keyed
import Mathlib.Algebra.Order.Group.Nat
import Mathlib.Algebra.Ring.Nat
import Mathlib.Data.List.MinMax

/-!
# Session records

`session_records.rs` and the observer of `qos_observer.rs`, which feeds the store from the
governor's events. Sessions are open at the same time, and their events come in any order.
`session_history` says what the store holds after any run of events: one record for each session
that was opened, in the order of the first openings, and in it the start and the peer of the first
opening, the bytes of all budget ticks since, the highest tier of all tier events since and the end
that was reported last.

Times and numbers of bytes are natural numbers.
-/

namespace LowBand.Messaging

open Lib

/-- `Tier`, from the lowest. -/
inductive Tier where
  /-- Voice only. -/
  | survival
  /-- With a coarse screen. -/
  | constrained
  /-- With a refined screen. -/
  | comfortable
  /-- All streams. -/
  | full
deriving DecidableEq

/-- The place of a tier in its derived order. -/
def Tier.rank : Tier → ℕ
  | .survival => 0
  | .constrained => 1
  | .comfortable => 2
  | .full => 3

/-- `SessionRecord`. -/
structure SessionRecord where
  /-- The session. -/
  connectionId : ℕ
  /-- The key of the remote peer. -/
  peerKey : Option (Bytes 32)
  /-- When it started. -/
  startedAtMs : ℕ
  /-- When it ended. -/
  endedAtMs : Option ℕ
  /-- The highest tier. -/
  peakTier : Option Tier
  /-- The bytes transferred. -/
  totalBytes : ℕ

/-- `SessionRecordStore`. -/
structure SessionRecordStore where
  /-- The records. -/
  records : List SessionRecord

namespace SessionRecordStore

/-- `SessionRecordStore::new`. -/
def new : SessionRecordStore := ⟨[]⟩

/-- `find_index`. -/
def findIndex (store : SessionRecordStore) (connectionId : ℕ) : Option ℕ :=
  store.records.findIdx? (·.connectionId = connectionId)

/-- `open`. -/
def openSession (store : SessionRecordStore) (connectionId : ℕ) (peerKey : Option (Bytes 32))
    (startedAtMs : ℕ) : SessionRecordStore :=
  if (store.findIndex connectionId).isNone then
    ⟨store.records ++ [⟨connectionId, peerKey, startedAtMs, none, none, 0⟩]⟩
  else store

/-- What `close` and the updates do: the record of the session is changed, if there is one. -/
def update (store : SessionRecordStore) (connectionId : ℕ) (f : SessionRecord → SessionRecord) :
    Bool × SessionRecordStore :=
  match store.findIndex connectionId with
  | some i => (true, ⟨store.records.modify i f⟩)
  | none => (false, store)

/-- `close`. -/
def close (store : SessionRecordStore) (connectionId endedAtMs : ℕ) : Bool × SessionRecordStore :=
  store.update connectionId fun r => { r with endedAtMs := some endedAtMs }

/-- `update_bytes`. -/
def updateBytes (store : SessionRecordStore) (connectionId totalBytes : ℕ) :
    Bool × SessionRecordStore :=
  store.update connectionId fun r => { r with totalBytes }

/-- The peak with one more tier. -/
def advance (peak : Option Tier) (tier : Tier) : Option Tier :=
  match peak with
  | none => some tier
  | some current => if current.rank < tier.rank then some tier else some current

/-- `update_peak_tier`. -/
def updatePeakTier (store : SessionRecordStore) (connectionId : ℕ) (tier : Tier) :
    Bool × SessionRecordStore :=
  store.update connectionId fun r => { r with peakTier := advance r.peakTier tier }

/-- `get`. -/
def get (store : SessionRecordStore) (connectionId : ℕ) : Option SessionRecord :=
  (store.findIndex connectionId).bind fun i => store.records[i]?

end SessionRecordStore

/-! ## The observer -/

/-- The rates of the six lanes of a `StreamBudget`. -/
structure StreamBps where
  /-- Voice. -/
  audio : ℕ
  /-- Input. -/
  input : ℕ
  /-- The coarse screen. -/
  screenCoarse : ℕ
  /-- The camera. -/
  camera : ℕ
  /-- The refined screen. -/
  screenRefinement : ℕ
  /-- Transfers. -/
  xfer : ℕ

/-- The bytes of a tick of 100 ms. -/
def StreamBps.bytesThisTick (b : StreamBps) : ℕ :=
  (b.audio + b.input + b.screenCoarse + b.camera + b.screenRefinement + b.xfer) / 80

/-- An event of a session that the observer is told of. -/
inductive SessionEvent where
  /-- The session is established. -/
  | sessionOpen (peerKey : Option (Bytes 32)) (startedAtMs : ℕ)
  /-- The governor chose a tier. -/
  | tierEvent (tier : Tier)
  /-- The governor gave out rates. -/
  | budgetTick (rates : StreamBps)
  /-- The session ended. -/
  | sessionClose (endedAtMs : ℕ)

/-- `QosSessionObserver`. -/
structure QosSessionObserver where
  /-- The records. -/
  store : SessionRecordStore

namespace QosSessionObserver

/-- `QosSessionObserver::new`. -/
def new : QosSessionObserver := ⟨.new⟩

/-- `on_budget_tick`. -/
def onBudgetTick (obs : QosSessionObserver) (connectionId : ℕ) (rates : StreamBps) :
    QosSessionObserver :=
  let currentTotal := ((obs.store.get connectionId).map (·.totalBytes)).getD 0
  ⟨(obs.store.updateBytes connectionId (currentTotal + rates.bytesThisTick)).2⟩

/-- `on_session_open`, `on_tier_event`, `on_budget_tick` and `on_session_close`. -/
def on (obs : QosSessionObserver) : ℕ × SessionEvent → QosSessionObserver
  | (id, .sessionOpen peerKey startedAtMs) => ⟨obs.store.openSession id peerKey startedAtMs⟩
  | (id, .tierEvent tier) => ⟨(obs.store.updatePeakTier id tier).2⟩
  | (id, .budgetTick rates) => obs.onBudgetTick id rates
  | (id, .sessionClose endedAtMs) => ⟨(obs.store.close id endedAtMs).2⟩

/-- The observer keeps one record for each session. -/
def sessions : Keyed ℕ SessionRecord (ℕ × SessionEvent) where
  key := SessionRecord.connectionId
  of := Prod.fst
  create
    | (id, .sessionOpen peerKey startedAtMs) => some ⟨id, peerKey, startedAtMs, none, none, 0⟩
    | _ => none
  change
    | (_, .sessionOpen _ _), r => r
    | (_, .tierEvent tier), r =>
      { r with peakTier := SessionRecordStore.advance r.peakTier tier }
    | (_, .budgetTick rates), r => { r with totalBytes := r.totalBytes + rates.bytesThisTick }
    | (_, .sessionClose endedAtMs), r => { r with endedAtMs := some endedAtMs }
  key_create {e r} h := by
    obtain ⟨id, event⟩ := e
    cases event <;> simp only [Option.some.injEq, reduceCtorEq] at h
    rw [← h]
  key_change e r := by
    obtain ⟨id, event⟩ := e
    cases event <;> rfl

variable {obs : QosSessionObserver} {id : ℕ}

/-- The index of a session, if it has a record. -/
theorem findIndex_cases (store : SessionRecordStore) (id : ℕ) :
    store.findIndex id = none ∧ id ∉ store.records.map (·.connectionId) ∨
      ∃ i, store.findIndex id = some i ∧ id ∈ store.records.map (·.connectionId) := by
  unfold SessionRecordStore.findIndex
  cases hfind : store.records.findIdx? (·.connectionId = id) with
  | none =>
    refine .inl ⟨rfl, fun hmem => ?_⟩
    obtain ⟨r, hr, hid⟩ := List.mem_map.mp hmem
    exact of_decide_eq_false (List.findIdx?_eq_none_iff.mp hfind r hr) hid
  | some i =>
    obtain ⟨hlt, hid, -⟩ := List.findIdx?_eq_some_iff_getElem.mp hfind
    exact .inr ⟨i, rfl, List.mem_map.mpr ⟨_, List.getElem_mem hlt, of_decide_eq_true hid⟩⟩

/-- An update of the record of a session. -/
theorem update_records {store : SessionRecordStore}
    (hnodup : (store.records.map (·.connectionId)).Nodup) (id : ℕ)
    (f : SessionRecord → SessionRecord) :
    (store.update id f).2.records =
      store.records.map fun r => if r.connectionId = id then f r else r := by
  unfold SessionRecordStore.update
  rcases findIndex_cases store id with ⟨hnone, hmem⟩ | ⟨i, hsome, -⟩
  · rw [hnone]
    have hid : ∀ r ∈ store.records, r.connectionId ≠ id :=
      fun r hr heq => hmem (List.mem_map.mpr ⟨r, hr, heq⟩)
    exact (List.map_id _).symm.trans
      (List.map_congr_left fun r hr => (if_neg (hid r hr)).symm)
  · rw [hsome]
    exact modify_findIdx? hnodup hsome f

/-- The record of a session is the one that is got. -/
theorem get_eq_some {store : SessionRecordStore}
    (hnodup : (store.records.map (·.connectionId)).Nodup) {r : SessionRecord}
    (hr : r ∈ store.records) : store.get r.connectionId = some r := by
  have hmem : r.connectionId ∈ store.records.map (·.connectionId) := List.mem_map_of_mem hr
  unfold SessionRecordStore.get
  rcases findIndex_cases store r.connectionId with ⟨-, hnot⟩ | ⟨i, hsome, -⟩
  · exact absurd hmem hnot
  · obtain ⟨hlt, hid, -⟩ := List.findIdx?_eq_some_iff_getElem.mp hsome
    have heq : store.records[i] = r :=
      List.inj_on_of_nodup_map hnodup (List.getElem_mem hlt) hr (of_decide_eq_true hid)
    rw [hsome, Option.bind_some, List.getElem?_eq_getElem hlt, heq]

/-- An event does to the records what it does to the record of its session. -/
theorem on_records (hnodup : (obs.store.records.map (·.connectionId)).Nodup)
    (e : ℕ × SessionEvent) : (obs.on e).store.records = sessions.step obs.store.records e := by
  obtain ⟨id, event⟩ := e
  cases event with
  | sessionOpen peerKey startedAtMs =>
    unfold Keyed.step
    show (obs.store.openSession id peerKey startedAtMs).records = _
    unfold SessionRecordStore.openSession
    rcases findIndex_cases obs.store id with ⟨hnone, hmem⟩ | ⟨i, hsome, hmem⟩
    · rw [hnone, Option.isNone_none, if_pos rfl]
      exact (if_neg hmem).symm
    · -- The session has a record already, which stays as it is.
      rw [hsome, Option.isNone_some, if_neg Bool.false_ne_true]
      refine ((if_pos hmem).trans ?_).symm
      exact (List.map_congr_left fun r _ => ite_self r).trans (List.map_id' _)
  -- These events only change the record of their session.
  | tierEvent tier =>
    rw [sessions.step_of_create_none rfl]
    exact update_records hnodup id _
  | budgetTick rates =>
    rw [sessions.step_of_create_none rfl]
    refine (update_records hnodup id _).trans (List.map_congr_left fun r hr => ?_)
    show (if r.connectionId = id then _ else r) = if r.connectionId = id then _ else r
    split_ifs with hid
    · -- The total that the observer reads is that of the record.
      rw [← hid, get_eq_some hnodup hr]
      rfl
    · rfl
  | sessionClose endedAtMs =>
    rw [sessions.step_of_create_none rfl]
    exact update_records hnodup id _

/-- After any run the records are what the events of each session make. -/
theorem records_run (es : List (ℕ × SessionEvent)) :
    (run on new es).store.records = run sessions.step [] es := by
  induction es using List.reverseRecOn with
  | nil => rfl
  | append_singleton es e ih =>
    rw [run_append, run_append]
    show ((run on new es).on e).store.records = sessions.step (run sessions.step [] es) e
    rw [on_records, ih]
    rw [ih]
    exact (Keyed.holds_run (K := sessions) es).nodup

/-! ## The history of a session -/

/-- The events of a session from its first opening on. -/
def sinceOpen (id : ℕ) (es : List (ℕ × SessionEvent)) : List SessionEvent :=
  ((es.filter (·.1 = id)).map Prod.snd).dropWhile fun
    | .sessionOpen _ _ => false
    | _ => true

/-- The bytes of a budget tick. -/
def tickBytes : SessionEvent → Option ℕ
  | .budgetTick rates => some rates.bytesThisTick
  | _ => none

/-- The tier of a tier event. -/
def tierOf : SessionEvent → Option Tier
  | .tierEvent tier => some tier
  | _ => none

/-- The end of a session that ended. -/
def endOf : SessionEvent → Option ℕ
  | .sessionClose endedAtMs => some endedAtMs
  | _ => none

/-- What the events of a session from its first opening on amount to. -/
def history (id : ℕ) : List SessionEvent → Option SessionRecord
  | .sessionOpen peerKey startedAtMs :: since =>
    some {
      connectionId := id
      peerKey
      startedAtMs
      endedAtMs := (since.filterMap endOf).getLast?
      peakTier := (since.filterMap tierOf).argmax Tier.rank
      totalBytes := (since.filterMap tickBytes).sum }
  | _ => none

/-- The sessions that were opened, in the order of their first openings. -/
def opened (es : List (ℕ × SessionEvent)) : List ℕ :=
  (es.filterMap fun
    | (id, .sessionOpen _ _) => some id
    | _ => none).eraseDups

/-- The highest tier, with one more. -/
theorem argmax_rank_concat (tiers : List Tier) (tier : Tier) :
    (tiers ++ [tier]).argmax Tier.rank =
      SessionRecordStore.advance (tiers.argmax Tier.rank) tier := by
  rw [List.argmax_concat]
  cases tiers.argmax Tier.rank <;> rfl

/-- The event is an opening. -/
def isOpen : SessionEvent → Bool
  | .sessionOpen _ _ => true
  | _ => false

/-- One more event. -/
theorem sinceOpen_concat (id : ℕ) (es : List (ℕ × SessionEvent)) (e : ℕ × SessionEvent) :
    sinceOpen id (es ++ [e]) =
      if e.1 = id ∧ (isOpen e.2 ∨ sinceOpen id es ≠ []) then sinceOpen id es ++ [e.2]
      else sinceOpen id es := by
  obtain ⟨id', event⟩ := e
  unfold sinceOpen
  rw [List.filter_append, List.map_append]
  by_cases hid : id' = id
  · rw [List.filter_cons_of_pos (by simpa using hid), List.dropWhile_append]
    generalize List.dropWhile _ (List.map Prod.snd _) = since
    cases since <;> cases event <;> simp [isOpen, hid, List.dropWhile]
  · rw [List.filter_cons_of_neg (by simpa using hid)]
    simp [hid]

/-- The events of a session that was opened begin with an opening. -/
theorem sinceOpen_cases (id : ℕ) (es : List (ℕ × SessionEvent)) :
    sinceOpen id es = [] ∨
      ∃ peerKey startedAtMs since,
        sinceOpen id es = .sessionOpen peerKey startedAtMs :: since := by
  induction es using List.reverseRecOn with
  | nil => exact .inl rfl
  | append_singleton es e ih =>
    rw [sinceOpen_concat]
    split_ifs with h
    · rcases ih with hnil | ⟨peerKey, startedAtMs, since, hsince⟩
      · rw [hnil]
        obtain ⟨-, hopen | hne⟩ := h
        · right
          cases hevent : e.2 <;> simp [isOpen, hevent] at hopen ⊢
        · exact absurd hnil hne
      · exact .inr ⟨peerKey, startedAtMs, since ++ [e.2], by rw [hsince]; rfl⟩
    · exact ih

/-- An event of an open session changes its record. -/
theorem history_concat (id : ℕ) (peerKey : Option (Bytes 32)) (startedAtMs : ℕ)
    (since : List SessionEvent) (event : SessionEvent) :
    history id (.sessionOpen peerKey startedAtMs :: since ++ [event]) =
      (history id (.sessionOpen peerKey startedAtMs :: since)).map
        (sessions.change (id, event)) := by
  cases event <;>
    simp [history, sessions, endOf, tierOf, tickBytes, List.filterMap_cons, argmax_rank_concat]

/-- The record of a session is its history. -/
theorem record_eq_history (id : ℕ) (es : List (ℕ × SessionEvent)) :
    sessions.record id es = history id (sinceOpen id es) := by
  induction es using List.reverseRecOn with
  | nil => rfl
  | append_singleton es e ih =>
    rw [Keyed.record_concat, sinceOpen_concat, ih]
    obtain ⟨id', event⟩ := e
    by_cases hid : id' = id
    · rw [if_pos (show sessions.of (id', event) = id from hid)]
      rcases sinceOpen_cases id es with hnil | ⟨peerKey, startedAtMs, since, hsince⟩
      · -- The session has no record yet: only an opening makes one.
        rw [hnil]
        cases event <;> simp [isOpen, hid, history, Keyed.one, sessions]
      · rw [hsince, if_pos ⟨hid, .inr (List.cons_ne_nil _ _)⟩, history_concat]
        rw [← hid]
        rfl
    · rw [if_neg (show ¬ sessions.of (id', event) = id from hid), if_neg fun h => hid h.1]

/-- The sessions with a record are those that were opened. -/
theorem order_eq_opened (es : List (ℕ × SessionEvent)) : sessions.order es = opened es := by
  unfold Keyed.order opened
  congr 1
  induction es with
  | nil => rfl
  | cons e es ih =>
    obtain ⟨id, event⟩ := e
    cases event <;> simpa [sessions] using ih

/-- After any run the records are the histories of the sessions that were opened. -/
theorem records_eq_histories (es : List (ℕ × SessionEvent)) :
    (run on new es).store.records =
      (opened es).filterMap fun id => history id (sinceOpen id es) := by
  have hsome : (run on new es).store.records.map some =
      (opened es).map fun id => history id (sinceOpen id es) := by
    rw [records_run, Keyed.run_eq, order_eq_opened]
    exact List.map_congr_left fun id _ => record_eq_history id es
  calc (run on new es).store.records
      = ((run on new es).store.records.map some).filterMap id := by simp [List.filterMap_map]
    _ = (opened es).filterMap fun id => history id (sinceOpen id es) := by
      rw [hsome, List.filterMap_map]
      rfl

/-- After any run of events of any sessions, in any order, the record of a session is its history:
the start and the peer of its first opening, the bytes of all its budget ticks since, its highest
tier since and its last end since, and none if it was never opened. The store has one record for
each session that was opened, in the order of the first openings. -/
theorem session_history (es : List (ℕ × SessionEvent)) :
    (∀ id, (run on new es).store.get id = history id (sinceOpen id es)) ∧
      (run on new es).store.records.map (·.connectionId) = opened es ∧ (opened es).Nodup := by
  have hholds := Keyed.holds_run (K := sessions) es
  rw [← records_run] at hholds
  have hkeys : (run on new es).store.records.map (·.connectionId) = opened es :=
    hholds.keys_eq.trans (order_eq_opened es)
  refine ⟨fun id => ?_, hkeys, hkeys ▸ hholds.nodup⟩
  rw [← record_eq_history]
  -- A session that was opened has its one record, any other has none.
  by_cases hopen : id ∈ opened es
  · rw [← hkeys] at hopen
    obtain ⟨r, hr, rfl⟩ := List.mem_map.mp hopen
    rw [get_eq_some hholds.nodup hr]
    exact (hholds.record_eq r hr).symm
  · have hnone : sessions.record id es = none := by
      rw [← Option.not_isSome_iff_eq_none, Keyed.record_isSome_iff, order_eq_opened]
      exact hopen
    rw [hnone, SessionRecordStore.get]
    rcases findIndex_cases (run on new es).store id with ⟨hindex, -⟩ | ⟨i, -, hmem⟩
    · rw [hindex]
      rfl
    · exact absurd (hkeys ▸ hmem) hopen

end QosSessionObserver

end LowBand.Messaging
