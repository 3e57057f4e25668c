import Mathlib.Data.Finset.Card
import LowBand.Signaling.Room

/-!
# Concurrent joins

`post_room_join` makes up to four operations on the store: it reads the room's record, reads the
participant's record, scans the participants when there is none, and inserts. No transaction holds
them together, so those of other requests may stand between them. A `JoinRequest` is a request
between two of its operations, and `JoinRoom` is a store with any number of requests on one room. An
event lets one request make its next operation.

One request alone does what `postRoomJoin` does (`advance_alone`). The other operations leave the
members as they are (`advance_cases`), and an insertion keeps a room within the cap exactly when it
finds the participant stored or the room not full (`capped_insert_iff`), which the scan of the same
request saw, but before the operations of others. So all states of a run are within the cap exactly
when all insertions are of this kind (`capped_iff_insertOk`). That a request answered with `OK` has
its participant stored is kept by every operation.
-/

namespace LowBand.Signaling

open Lib

/-! ## Requests between their operations -/

/-- The next operation of a join request, or its answer. -/
inductive JoinPhase
  /-- `rooms.get`. -/
  | readRoom
  /-- `rooms.remove`, for a room that has expired. -/
  | removeRoom
  /-- `room_members.get`. -/
  | readMember
  /-- `room_members.scan_prefix`. -/
  | scanMembers
  /-- `room_members.insert`. -/
  | insertMember
  | answered (status : RoomStatus)
  deriving DecidableEq, Repr

/-- A request to join a room. -/
structure JoinRequest where
  pid : List UInt8
  pubkey : List UInt8
  phase : JoinPhase
  deriving DecidableEq, Repr

namespace JoinRequest

/-- The request makes its next operation at the clock reading `now`, with the checks behind it. -/
def advance (q : JoinRequest) (st : RoomStore) (now : ℤ) (code : List UInt8) :
    RoomStore × JoinRequest :=
  match q.phase with
  | .readRoom =>
    match st.rooms.lookup code with
    | some v =>
      if 8 ≤ v.length then
        if ofLEI64 (v.take 8) > now then
          if q.pid.length = 0 ∨ 64 < q.pid.length then
            (st, { q with phase := .answered .badRequest })
          else (st, { q with phase := .readMember })
        else (st, { q with phase := .removeRoom })
      else (st, { q with phase := .answered .notFound })
    | none => (st, { q with phase := .answered .notFound })
  | .removeRoom =>
    ({ st with rooms := st.rooms.erase code }, { q with phase := .answered .notFound })
  | .readMember =>
    if (st.roomMembers.lookup (memberKey code q.pid)).isNone then
      (st, { q with phase := .scanMembers })
    else (st, { q with phase := .insertMember })
  | .scanMembers =>
    if meshMaxParticipants ≤ (st.roomParticipants code).length then
      (st, { q with phase := .answered .conflict })
    else (st, { q with phase := .insertMember })
  | .insertMember =>
    ({ st with roomMembers := st.roomMembers.insert (memberKey code q.pid) q.pubkey },
      { q with phase := .answered .ok })
  | .answered _ => (st, q)

/-- The next operation of a request that is alone with the store. -/
def alone (now : ℤ) (code : List UInt8) (s : RoomStore × JoinRequest) : RoomStore × JoinRequest :=
  s.2.advance s.1 now code

/-- An answered request makes no more operations. -/
theorem alone_answered (now : ℤ) (code : List UInt8) (st : RoomStore) (pid pubkey : List UInt8)
    (status : RoomStatus) (n : ℕ) :
    (alone now code)^[n] (st, ⟨pid, pubkey, .answered status⟩)
      = (st, ⟨pid, pubkey, .answered status⟩) :=
  Function.iterate_fixed rfl n

/-- Behind the check of the room, a request that nothing interrupts does what `add_participant`
does. -/
theorem alone_readMember (st : RoomStore) (now : ℤ) (code pid pubkey : List UInt8) :
    (alone now code)^[3] (st, ⟨pid, pubkey, .readMember⟩)
      = match st.addParticipant code pid pubkey with
        | some st => (st, ⟨pid, pubkey, .answered .ok⟩)
        | none => (st, ⟨pid, pubkey, .answered .conflict⟩) := by
  unfold RoomStore.addParticipant
  -- Who is a member already is written again; for anyone else the members are counted first.
  cases hm : st.roomMembers.lookup (memberKey code pid) with
  | some k =>
    have hread : alone now code (st, ⟨pid, pubkey, .readMember⟩)
        = (st, ⟨pid, pubkey, .insertMember⟩) := by simp [alone, advance, hm]
    rw [Function.iterate_succ_apply, hread]
    rfl
  | none =>
    have hread : alone now code (st, ⟨pid, pubkey, .readMember⟩)
        = (st, ⟨pid, pubkey, .scanMembers⟩) := by simp [alone, advance, hm]
    rw [Function.iterate_succ_apply, hread, Function.iterate_succ_apply]
    by_cases hcap : meshMaxParticipants ≤ (st.roomParticipants code).length
    · have hscan : alone now code (st, ⟨pid, pubkey, .scanMembers⟩)
          = (st, ⟨pid, pubkey, .answered .conflict⟩) := if_pos hcap
      rw [hscan, alone_answered]
      simp [hcap]
    · have hscan : alone now code (st, ⟨pid, pubkey, .scanMembers⟩)
          = (st, ⟨pid, pubkey, .insertMember⟩) := if_neg hcap
      rw [hscan]
      simp only [hcap, decide_false, Bool.and_false, Bool.false_eq_true, if_false]
      rfl

/-- A request that nothing interrupts does what the handler does in one step. -/
theorem advance_alone (st : RoomStore) (now : ℤ) (code pid pubkey : List UInt8) :
    (alone now code)^[4] (st, ⟨pid, pubkey, .readRoom⟩)
      = ((st.postRoomJoin now code pid pubkey).2,
        ⟨pid, pubkey, .answered (st.postRoomJoin now code pid pubkey).1⟩) := by
  rw [Function.iterate_succ_apply]
  unfold RoomStore.postRoomJoin RoomStore.roomLive
  cases hv : st.rooms.lookup code with
  | none =>
    have hread : alone now code (st, ⟨pid, pubkey, .readRoom⟩)
        = (st, ⟨pid, pubkey, .answered .notFound⟩) := by simp [alone, advance, hv]
    rw [hread, alone_answered]
  | some v =>
    -- The checks of the handler, in its order.
    by_cases hlen : 8 ≤ v.length
    swap
    · have hread : alone now code (st, ⟨pid, pubkey, .readRoom⟩)
          = (st, ⟨pid, pubkey, .answered .notFound⟩) := by simp [alone, advance, hv, hlen]
      simp only [hread, alone_answered, if_neg hlen]
    by_cases hlive : ofLEI64 (v.take 8) > now
    swap
    · have hread : alone now code (st, ⟨pid, pubkey, .readRoom⟩)
          = (st, ⟨pid, pubkey, .removeRoom⟩) := by simp [alone, advance, hv, hlen, hlive]
      simp only [hread, if_pos hlen, if_neg hlive]
      rfl
    by_cases hpid : pid.length = 0 ∨ 64 < pid.length
    · have hread : alone now code (st, ⟨pid, pubkey, .readRoom⟩)
          = (st, ⟨pid, pubkey, .answered .badRequest⟩) := by
        simp only [alone, advance, hv, if_pos hlen, if_pos hlive, if_pos hpid]
      simp only [hread, alone_answered, if_pos hlen, if_pos hlive, if_pos hpid]
    · have hread : alone now code (st, ⟨pid, pubkey, .readRoom⟩)
          = (st, ⟨pid, pubkey, .readMember⟩) := by
        simp only [alone, advance, hv, if_pos hlen, if_pos hlive, if_neg hpid]
      simp only [hread, alone_readMember, if_pos hlen, if_pos hlive, if_neg hpid]
      cases st.addParticipant code pid pubkey <;> rfl

/-- An operation inserts the participant, with which the request is answered, or it leaves the
members as they are and does not answer with `OK`. -/
theorem advance_cases (q : JoinRequest) (st : RoomStore) (now : ℤ) (code : List UInt8) :
    (q.phase = .insertMember ∧ q.advance st now code =
      ({ st with roomMembers := st.roomMembers.insert (memberKey code q.pid) q.pubkey },
        { q with phase := .answered .ok })) ∨
    (q.phase ≠ .insertMember ∧ (q.advance st now code).1.roomMembers = st.roomMembers ∧
      ((q.advance st now code).2 = q ∨ (q.advance st now code).2.phase ≠ .answered .ok)) := by
  unfold advance
  -- Only the insertion writes and answers with success.
  cases hphase : q.phase with
  | readRoom =>
    right
    dsimp only
    cases st.rooms.lookup code with
    | none => simp
    | some v =>
      dsimp only
      split_ifs <;> simp
  | removeRoom => simp
  | readMember =>
    right
    dsimp only
    split_ifs <;> simp
  | scanMembers =>
    right
    dsimp only
    split_ifs <;> simp
  | insertMember => exact Or.inl ⟨rfl, rfl⟩
  | answered status => simp

end JoinRequest

/-! ## One room -/

/-- A store with the requests to join the room `code`. -/
structure JoinRoom where
  code : List UInt8
  st : RoomStore
  requests : List JoinRequest

/-- The request at a position makes its next operation at a clock reading. -/
structure JoinEvent where
  index : ℕ
  now : ℤ
  deriving DecidableEq, Repr

namespace JoinRoom

open World (firstCode)

/-- Requests of the given participants arrive. -/
def start (code : List UInt8) (st : RoomStore) (joins : List (List UInt8 × List UInt8)) :
    JoinRoom :=
  ⟨code, st, joins.map fun j => ⟨j.1, j.2, .readRoom⟩⟩

/-- One operation. -/
def step (s : JoinRoom) (e : JoinEvent) : JoinRoom :=
  match s.requests[e.index]? with
  | none => s
  | some q =>
    let (st, q) := q.advance s.st e.now s.code
    { s with st := st, requests := s.requests.set e.index q }

/-- At most `MESH_MAX_PARTICIPANTS` distinct participants are stored for the room. -/
def Capped (s : JoinRoom) : Prop :=
  (s.st.roomParticipants s.code).toFinset.card ≤ meshMaxParticipants

/-- Every request that was answered with `OK` has its participant stored. -/
def AnsweredStored (s : JoinRoom) : Prop :=
  ∀ q ∈ s.requests, q.phase = .answered .ok → s.st.participantPubkey s.code q.pid ≠ none

/-- The condition on an operation: an insertion finds its participant stored, or the room still not
full, so that no other request has filled it since the scan. -/
def InsertOk (s : JoinRoom) (e : JoinEvent) : Prop :=
  ∀ q, s.requests[e.index]? = some q → q.phase = .insertMember →
    s.st.participantPubkey s.code q.pid ≠ none ∨
      (s.st.roomParticipants s.code).length < meshMaxParticipants

/-- Whether a room is within its cap can be decided. -/
instance (s : JoinRoom) : Decidable s.Capped := inferInstanceAs (Decidable (_ ≤ _))

/-- Whether an insertion meets the condition can be decided. -/
instance (s : JoinRoom) (e : JoinEvent) : Decidable (s.InsertOk e) :=
  inferInstanceAs (Decidable (∀ q ∈ s.requests[e.index]?, _ → _ ∨ _))

/-- The participants stored after an insertion. -/
theorem roomParticipants_insert (st : RoomStore) (code pid pubkey : List UInt8) :
    (RoomStore.roomParticipants
        { st with roomMembers := st.roomMembers.insert (memberKey code pid) pubkey } code).toFinset
      = insert pid (st.roomParticipants code).toFinset := by
  ext p
  rw [Finset.mem_insert, List.mem_toFinset, List.mem_toFinset, RoomStore.mem_roomParticipants,
    RoomStore.mem_roomParticipants]
  unfold RoomStore.participantPubkey
  by_cases hp : p = pid
  · subst hp
    simp
  · have hne : memberKey code p ≠ memberKey code pid :=
      fun heq => hp (memberKey_inj rfl heq).2
    rw [AList.lookup_insert_ne hne]
    exact (or_iff_right hp).symm

/-- An insertion keeps a room within the cap exactly when the participant is stored or the room is
not full. -/
theorem capped_insert_iff {st : RoomStore} {code : List UInt8}
    (hcap : (st.roomParticipants code).toFinset.card ≤ meshMaxParticipants)
    (pid pubkey : List UInt8) :
    (RoomStore.roomParticipants
        { st with roomMembers := st.roomMembers.insert (memberKey code pid) pubkey }
        code).toFinset.card ≤ meshMaxParticipants ↔
      st.participantPubkey code pid ≠ none ∨
        (st.roomParticipants code).length < meshMaxParticipants := by
  have hlen : (st.roomParticipants code).length = (st.roomParticipants code).toFinset.card :=
    (List.toFinset_card_of_nodup (st.nodup_roomParticipants code)).symm
  rw [roomParticipants_insert, ← RoomStore.mem_roomParticipants, ← List.mem_toFinset, hlen]
  by_cases hmem : pid ∈ (st.roomParticipants code).toFinset
  · rw [Finset.insert_eq_self.mpr hmem]
    exact iff_of_true hcap (Or.inl hmem)
  · rw [Finset.card_insert_of_notMem hmem, or_iff_right hmem]
    exact Nat.succ_le_iff

/-- A participant once stored stays stored. -/
theorem participantPubkey_insert {st : RoomStore} {code p : List UInt8}
    (hp : st.participantPubkey code p ≠ none) (pid pubkey : List UInt8) :
    RoomStore.participantPubkey
      { st with roomMembers := st.roomMembers.insert (memberKey code pid) pubkey } code p
        ≠ none := by
  rw [← RoomStore.mem_roomParticipants, ← List.mem_toFinset, roomParticipants_insert]
  rw [← RoomStore.mem_roomParticipants, ← List.mem_toFinset] at hp
  exact Finset.mem_insert_of_mem hp

/-- Every operation keeps the participants of answered requests stored. -/
theorem answeredStored_step (s : JoinRoom) (e : JoinEvent) (h : s.AnsweredStored) :
    (s.step e).AnsweredStored := by
  unfold step
  cases hq : s.requests[e.index]? with
  | none => exact h
  | some q =>
    intro q' hq' hok
    -- The request inserts its member now, or the members stay as they are.
    obtain ⟨-, hadv⟩ | ⟨-, hmembers, hphase⟩ := q.advance_cases s.st e.now s.code
    · simp only [hadv] at hq' ⊢
      rcases List.mem_or_eq_of_mem_set hq' with hmem | rfl
      · exact participantPubkey_insert (h q' hmem hok) q.pid q.pubkey
      · rw [← RoomStore.mem_roomParticipants, ← List.mem_toFinset, roomParticipants_insert]
        exact Finset.mem_insert_self _ _
    · dsimp only at hq' ⊢
      have hold : q' ∈ s.requests := by
        rcases List.mem_or_eq_of_mem_set hq' with hmem | rfl
        · exact hmem
        · rw [hphase.resolve_right (not_not_intro hok)]
          exact List.mem_of_getElem? hq
      unfold RoomStore.participantPubkey
      rw [hmembers]
      exact h q' hold hok

/-- An operation keeps a room within the cap exactly when it meets the condition. -/
theorem capped_step_iff (s : JoinRoom) (e : JoinEvent) (h : s.Capped) :
    (s.step e).Capped ↔ s.InsertOk e := by
  unfold step InsertOk Capped
  cases hq : s.requests[e.index]? with
  | none => exact iff_of_true h fun q hsome => nomatch hsome
  | some q =>
    -- An insertion can break the cap, no other step does.
    obtain ⟨hphase, hadv⟩ | ⟨hphase, hmembers, -⟩ := q.advance_cases s.st e.now s.code
    · simp only [hadv]
      rw [capped_insert_iff h]
      constructor
      · rintro hok q' hsome -
        obtain rfl := Option.some.inj hsome
        exact hok
      · exact fun hok => hok q rfl hphase
    · refine iff_of_true ?_ ?_
      · dsimp only
        unfold RoomStore.roomParticipants
        rw [hmembers]
        exact h
      · intro q' hsome hinsert
        obtain rfl := Option.some.inj hsome
        exact absurd hinsert hphase

/-- From a store in which the room is within the cap, in every interleaving of joins: all states are
within the cap, and have the participants of the requests answered with `OK` stored, exactly when
every insertion finds its participant stored or the room not full. -/
theorem capped_iff_insertOk (code : List UInt8) (st : RoomStore)
    (joins : List (List UInt8 × List UInt8)) (es : List JoinEvent)
    (hcap : (start code st joins).Capped) :
    (∀ pre, pre <+: es →
      (run step (start code st joins) pre).Capped ∧
        (run step (start code st joins) pre).AnsweredStored) ↔
      Guarded step InsertOk (start code st joins) es := by
  have hstored : (start code st joins).AnsweredStored := by
    intro q hq hok
    obtain ⟨j, -, rfl⟩ := List.mem_map.mp hq
    cases hok
  refine forall_isPrefix_iff_guarded
    (P := fun s : JoinRoom => s.Capped ∧ s.AnsweredStored) ?_ ⟨hcap, hstored⟩
  rintro s e ⟨hs, ha⟩
  rw [capped_step_iff s e hs, and_iff_left (answeredStored_step s e ha)]

/-- Five requests that make their operations one after another, of which the last finds the room
full. -/
theorem capped_five_joins_in_turn :
    let s := start firstCode (RoomStore.empty.createRoom 0 firstCode)
      [([97], [1]), ([98], [2]), ([99], [3]), ([100], [4]), ([101], [5])]
    let es := (List.range 20).map fun k => ⟨k / 4, k⟩
    ∀ pre, pre <+: es → (run step s pre).Capped ∧ (run step s pre).AnsweredStored :=
  (capped_iff_insertOk _ _ _ _ (by decide +kernel)).mpr (by decide +kernel)

/-- Five requests that take turns all scan before the first insertion, and all five are stored. -/
theorem not_capped_five_joins :
    ¬ ∀ (code : List UInt8) (st : RoomStore) (joins : List (List UInt8 × List UInt8))
      (es : List JoinEvent), (start code st joins).Capped → ∀ pre, pre <+: es →
        (run step (start code st joins) pre).Capped ∧
          (run step (start code st joins) pre).AnsweredStored := by
  intro hall
  have h := hall firstCode (RoomStore.empty.createRoom 0 firstCode)
    [([97], [1]), ([98], [2]), ([99], [3]), ([100], [4]), ([101], [5])]
    ((List.range 20).map fun k => ⟨k % 5, k⟩) (by decide +kernel) _ (List.prefix_refl _)
  exact absurd h.1 (by decide +kernel)

end JoinRoom

end LowBand.Signaling
