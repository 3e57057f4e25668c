import LowBand.Signaling.Server

/-!
# Rooms

The room handlers of the signaling server (`core/signaling/src/room.rs`). Rooms, their members and
the members' candidates are kept in three trees. A member's key is `{code}:{id}` and a candidate's
`{code}:{id}:{seq}`, and both are found by scans for a key's start. Nothing removes the members or
the candidates of a room that has expired, and an id may be any text of 1 to 64 bytes.

`Rosters` is what the handlers are for: who has joined a room since it was created, with which key,
and what each has published, in order. `Holds` says that the trees hold exactly a state of the
rosters, and is kept by every request that meets `RoomOk` (`Holds.step`). A held room is listed as
its roster (`Holds.isolated`), so in a run whose requests all meet the condition every answer of
`get_room` is the room's roster (`rooms_isolated`).

The condition excludes three ways to go wrong: a room under a code that still has members
(`Holds.create_eq`), an id that continues another one behind a colon, whose candidates the scan for
the shorter id finds as well (`memberTag_prefix_iff`), and candidate numbers that start again after
a restart.
-/

namespace LowBand.Signaling

open Lib

/-! ## The store and the handlers -/

/-- The HTTP status of a room response. -/
inductive RoomStatus
  | ok
  | created
  | accepted
  | badRequest
  | forbidden
  | notFound
  | conflict
  deriving DecidableEq, Repr

/-- `MESH_MAX_PARTICIPANTS`. -/
def meshMaxParticipants : ℕ := 4

/-- `ROOM_TTL_SECS`. -/
def roomTtlSecs : ℤ := 300

/-- The key `{code}:{id}` of a member. -/
def memberKey (code pid : List UInt8) : List UInt8 := candidateTag code ++ pid

/-- The start `{code}:{id}:` of the keys of a member's candidates. -/
def memberTag (code pid : List UInt8) : List UInt8 := candidateTag (memberKey code pid)

/-- The key `{code}:{id}:{seq:016x}` of a member's candidate. -/
def memberCandidateKey (code pid : List UInt8) (seq : ℕ) : List UInt8 :=
  candidateKey (memberKey code pid) seq

/-- A participant in the answer of `get_room`. -/
structure Participant where
  id : List UInt8
  pubkey : List UInt8
  candidates : List (List UInt8)
  deriving DecidableEq, Repr

/-- The trees of `AppState` that the room handlers use, with the two counters of the process. -/
structure RoomStore where
  /-- Code to expiry. -/
  rooms : Tree
  /-- `{code}:{id}` to public key. -/
  roomMembers : Tree
  /-- `{code}:{id}:{seq}` to candidate. -/
  roomCandidates : Tree
  /-- `CODE_SEQ`. -/
  codeSeq : ℕ
  /-- `CAND_SEQ`. -/
  candSeq : ℕ

namespace RoomStore

/-- An empty store and a new process. -/
def empty : RoomStore := ⟨∅, ∅, ∅, codeSeqStart, 0⟩

variable (st : RoomStore)

/-- `create_room`. -/
def createRoom (now : ℤ) (code : List UInt8) : RoomStore :=
  { st with rooms := st.rooms.insert code (leBytesI64 (now + roomTtlSecs)) }

/-- `room_live`; the record of an expired room is removed. -/
def roomLive (now : ℤ) (code : List UInt8) : Bool × RoomStore :=
  match st.rooms.lookup code with
  | some v =>
    if 8 ≤ v.length then
      if ofLEI64 (v.take 8) > now then (true, st)
      else (false, { st with rooms := st.rooms.erase code })
    else (false, st)
  | none => (false, st)

/-- `room_participants`. -/
def roomParticipants (code : List UInt8) : List (List UInt8) :=
  (scanPrefix st.roomMembers (candidateTag code)).map fun e => e.1.drop (candidateTag code).length

/-- `add_participant`: `none` when the room is full. -/
def addParticipant (code pid pubkey : List UInt8) : Option RoomStore :=
  let isNew := (st.roomMembers.lookup (memberKey code pid)).isNone
  if isNew && decide (meshMaxParticipants ≤ (st.roomParticipants code).length) then none
  else some { st with roomMembers := st.roomMembers.insert (memberKey code pid) pubkey }

/-- `participant_pubkey`. -/
def participantPubkey (code pid : List UInt8) : Option (List UInt8) :=
  st.roomMembers.lookup (memberKey code pid)

/-- `participant_candidates`. -/
def participantCandidates (code pid : List UInt8) : List (List UInt8) :=
  (scanPrefix st.roomCandidates (memberTag code pid)).map Sigma.snd

/-- `add_room_candidate`. -/
def addRoomCandidate (code pid : List UInt8) (seq : ℕ) (cand : List UInt8) : RoomStore :=
  { st with roomCandidates := st.roomCandidates.insert (memberCandidateKey code pid seq) cand }

/-- `gen_code`. -/
def genCode : List UInt8 × RoomStore :=
  (formatCode st.codeSeq, { st with codeSeq := (st.codeSeq + 1) % 2 ^ 64 })

/-- `next_candidate_seq`. -/
def nextCandidateSeq : ℕ × RoomStore :=
  (st.candSeq, { st with candSeq := (st.candSeq + 1) % 2 ^ 64 })

/-- `post_room`: the code handed out. -/
def postRoom (now : ℤ) : List UInt8 × RoomStore :=
  let (code, st) := st.genCode
  (code, st.createRoom now code)

/-- `post_room_join`. -/
def postRoomJoin (now : ℤ) (code pid pubkey : List UInt8) : RoomStatus × RoomStore :=
  match st.roomLive now code with
  | (false, st) => (.notFound, st)
  | (true, st) =>
    if pid.length = 0 ∨ 64 < pid.length then (.badRequest, st)
    else
      match st.addParticipant code pid pubkey with
      | some st => (.ok, st)
      | none => (.conflict, st)

/-- `post_room_candidate`. -/
def postRoomCandidate (now : ℤ) (code pid candidate : List UInt8) : RoomStatus × RoomStore :=
  match st.roomLive now code with
  | (false, st) => (.notFound, st)
  | (true, st) =>
    match st.participantPubkey code pid with
    | none => (.forbidden, st)
    | some _ =>
      let (seq, st) := st.nextCandidateSeq
      (.accepted, st.addRoomCandidate code pid seq candidate)

/-- `get_room`: the participants of a live room. -/
def getRoom (now : ℤ) (code : List UInt8) : Option (List Participant) × RoomStore :=
  match st.roomLive now code with
  | (false, st) => (none, st)
  | (true, st) =>
    (some ((st.roomParticipants code).map fun pid =>
      ⟨pid, (st.participantPubkey code pid).getD [], st.participantCandidates code pid⟩), st)

/-- A new process on the same store. -/
def restart : RoomStore := { st with codeSeq := codeSeqStart, candSeq := 0 }

/-- The checks a join passes: a live room, an id of 1 to 64 bytes, and one that is stored or finds
the room not full. -/
def MayJoin (now : ℤ) (code pid : List UInt8) : Prop :=
  (st.roomLive now code).1 = true ∧ (0 < pid.length ∧ pid.length ≤ 64) ∧
    (st.participantPubkey code pid ≠ none ∨
      (st.roomParticipants code).length < meshMaxParticipants)

/-- The checks a candidate passes: a live room and a stored participant. -/
def MayPublish (now : ℤ) (code pid : List UInt8) : Prop :=
  (st.roomLive now code).1 = true ∧ st.participantPubkey code pid ≠ none

/-- Whether a participant may join can be decided. -/
instance (now : ℤ) (code pid : List UInt8) : Decidable (st.MayJoin now code pid) :=
  inferInstanceAs (Decidable (_ ∧ _ ∧ _))

/-- Whether one may publish can be decided. -/
instance (now : ℤ) (code pid : List UInt8) : Decidable (st.MayPublish now code pid) :=
  inferInstanceAs (Decidable (_ ∧ _))

end RoomStore

/-! ## What the handlers do -/

namespace RoomStore

/-- The check of a room: a live one is found in the store, which stays as it is, and another one is
at most removed. -/
theorem roomLive_cases (st : RoomStore) (now : ℤ) (code : List UInt8) :
    (st.roomLive now code = (true, st) ∧ ∃ v, st.rooms.lookup code = some v) ∨
      st.roomLive now code = (false, st) ∨
      st.roomLive now code = (false, { st with rooms := st.rooms.erase code }) := by
  unfold roomLive
  cases hv : st.rooms.lookup code with
  | none => exact Or.inr (Or.inl rfl)
  | some v =>
    dsimp only
    split_ifs
    · exact Or.inl ⟨rfl, v, rfl⟩
    · exact Or.inr (Or.inr rfl)
    · exact Or.inr (Or.inl rfl)

/-- A participant is added when it is stored already or the room is not full. -/
theorem addParticipant_cases (st : RoomStore) (code pid pubkey : List UInt8) :
    (st.participantPubkey code pid ≠ none ∨
        (st.roomParticipants code).length < meshMaxParticipants) ∧
      st.addParticipant code pid pubkey
        = some { st with roomMembers := st.roomMembers.insert (memberKey code pid) pubkey } ∨
    st.addParticipant code pid pubkey = none := by
  unfold addParticipant participantPubkey
  dsimp only
  by_cases hfull : ((st.roomMembers.lookup (memberKey code pid)).isNone &&
      decide (meshMaxParticipants ≤ (st.roomParticipants code).length)) = true
  · exact Or.inr (if_pos hfull)
  · refine Or.inl ⟨?_, if_neg hfull⟩
    rw [Bool.and_eq_true, Option.isNone_iff_eq_none, decide_eq_true_iff, not_and_or] at hfull
    exact hfull.imp_right not_le.mp

/-- A join that passes the checks is answered with `OK` and stored. Any other one is refused, and at
most an expired room is removed. -/
theorem postRoomJoin_cases (st : RoomStore) (now : ℤ) (code pid pubkey : List UInt8) :
    ((∃ v, st.rooms.lookup code = some v) ∧ st.MayJoin now code pid ∧
      st.postRoomJoin now code pid pubkey =
        (.ok, { st with roomMembers := st.roomMembers.insert (memberKey code pid) pubkey })) ∨
    (st.postRoomJoin now code pid pubkey).1 ≠ .ok ∧
      ((st.postRoomJoin now code pid pubkey).2 = st ∨
        (st.postRoomJoin now code pid pubkey).2 = { st with rooms := st.rooms.erase code }) := by
  unfold postRoomJoin MayJoin
  rcases st.roomLive_cases now code with ⟨hst, hroom⟩ | hst | hst <;> rw [hst]
  · dsimp only
    by_cases hlen : pid.length = 0 ∨ 64 < pid.length
    · rw [if_pos hlen]
      exact Or.inr ⟨RoomStatus.noConfusion, Or.inl rfl⟩
    · rw [if_neg hlen]
      obtain ⟨hcap, hadd⟩ | hadd := st.addParticipant_cases code pid pubkey <;> rw [hadd]
      · exact Or.inl ⟨hroom, ⟨rfl, by omega, hcap⟩, rfl⟩
      · exact Or.inr ⟨RoomStatus.noConfusion, Or.inl rfl⟩
  · exact Or.inr ⟨RoomStatus.noConfusion, Or.inl rfl⟩
  · exact Or.inr ⟨RoomStatus.noConfusion, Or.inr rfl⟩

/-- A candidate that passes the checks is accepted and stored under the next number. Any other one
is refused, and at most an expired room is removed. -/
theorem postRoomCandidate_cases (st : RoomStore) (now : ℤ) (code pid candidate : List UInt8) :
    ((∃ v, st.rooms.lookup code = some v) ∧ st.MayPublish now code pid ∧
      st.postRoomCandidate now code pid candidate =
        (.accepted, st.nextCandidateSeq.2.addRoomCandidate code pid st.candSeq candidate)) ∨
    (st.postRoomCandidate now code pid candidate).1 ≠ .accepted ∧
      ((st.postRoomCandidate now code pid candidate).2 = st ∨
        (st.postRoomCandidate now code pid candidate).2
          = { st with rooms := st.rooms.erase code }) := by
  unfold postRoomCandidate MayPublish
  rcases st.roomLive_cases now code with ⟨hst, hroom⟩ | hst | hst <;> rw [hst]
  · dsimp only
    cases hkey : st.participantPubkey code pid with
    | none => exact Or.inr ⟨RoomStatus.noConfusion, Or.inl rfl⟩
    | some pubkey => exact Or.inl ⟨hroom, ⟨rfl, Option.some_ne_none _⟩, rfl⟩
  · exact Or.inr ⟨RoomStatus.noConfusion, Or.inl rfl⟩
  · exact Or.inr ⟨RoomStatus.noConfusion, Or.inr rfl⟩

/-- The roster of a live room. -/
theorem getRoom_cases (st : RoomStore) (now : ℤ) (code : List UInt8) :
    ((∃ v, st.rooms.lookup code = some v) ∧ st.getRoom now code =
      (some ((st.roomParticipants code).map fun pid =>
        ⟨pid, (st.participantPubkey code pid).getD [], st.participantCandidates code pid⟩), st)) ∨
    (st.getRoom now code).1 = none ∧
      ((st.getRoom now code).2 = st ∨
        (st.getRoom now code).2 = { st with rooms := st.rooms.erase code }) := by
  unfold getRoom
  rcases st.roomLive_cases now code with ⟨hst, hroom⟩ | hst | hst <;> rw [hst]
  · exact Or.inl ⟨hroom, rfl⟩
  · exact Or.inr ⟨rfl, Or.inl rfl⟩
  · exact Or.inr ⟨rfl, Or.inr rfl⟩

/-- The participants listed for a room are those that are stored. -/
theorem mem_roomParticipants {st : RoomStore} {code pid : List UInt8} :
    pid ∈ st.roomParticipants code ↔ st.participantPubkey code pid ≠ none := by
  unfold roomParticipants participantPubkey
  rw [List.mem_map]
  constructor
  · rintro ⟨⟨k, v⟩, he, rfl⟩
    obtain ⟨⟨p, rfl⟩, hv⟩ := mem_scanPrefix.mp he
    rw [List.drop_left]
    exact fun hnone => Option.some_ne_none v (hv.symm.trans hnone)
  · intro hsome
    obtain ⟨v, hv⟩ := Option.ne_none_iff_exists'.mp hsome
    refine ⟨⟨memberKey code pid, v⟩, mem_scanPrefix.mpr ⟨List.prefix_append _ _, hv⟩, ?_⟩
    exact List.drop_left

/-- The members of a room are listed once. -/
theorem nodup_roomParticipants (st : RoomStore) (code : List UInt8) :
    (st.roomParticipants code).Nodup := by
  unfold roomParticipants
  have hkeys := nodup_scanPrefix st.roomMembers (candidateTag code)
  refine List.Nodup.map_on ?_ (List.Nodup.of_map _ hkeys)
  rintro ⟨k, v⟩ he ⟨k', v'⟩ he' heq
  obtain ⟨⟨p, rfl⟩, hv⟩ := mem_scanPrefix.mp he
  obtain ⟨⟨p', rfl⟩, hv'⟩ := mem_scanPrefix.mp he'
  simp only [List.drop_left] at heq
  subst heq
  rw [Option.some.inj (hv.symm.trans hv')]

end RoomStore

/-! ## Keys -/

/-- The tag of `p` starts a key behind the tag of `q`, whose rest has no colon, when `q` is `p` or
continues it behind a colon. -/
theorem candidateTag_prefix_iff {p q t : List UInt8} (ht : 58 ∉ t) :
    candidateTag p <+: candidateTag q ++ t ↔ q = p ∨ candidateTag p <+: q := by
  unfold candidateTag
  constructor
  · rintro ⟨r, hr⟩
    rw [List.append_assoc, List.append_assoc] at hr
    -- Whichever of the two words is the longer one begins with the other.
    obtain ⟨a, rfl, ha⟩ | ⟨a, rfl, ha⟩ := List.append_eq_append_iff.mp hr
    · cases a with
      | nil => exact Or.inl (List.append_nil p)
      | cons x a =>
        obtain ⟨rfl, -⟩ := List.cons.inj ha
        exact Or.inr ⟨a, by simp⟩
    · cases a with
      | nil => exact Or.inl (List.append_nil q).symm
      | cons x a =>
        obtain ⟨-, rfl⟩ := List.cons.inj ha
        exact absurd (by simp) ht
  · rintro (rfl | ⟨r, rfl⟩)
    · exact List.prefix_append _ _
    · exact ⟨r ++ [58] ++ t, by simp⟩

variable {code code' pid pid' : List UInt8}

/-- The tag of a member starts with that of the room. -/
theorem memberTag_eq (code pid : List UInt8) :
    memberTag code pid = candidateTag code ++ candidateTag pid := List.append_assoc _ _ _

/-- So does the key of a candidate. -/
theorem memberCandidateKey_eq (code pid : List UInt8) (seq : ℕ) :
    memberCandidateKey code pid seq
      = candidateTag code ++ (candidateTag pid ++ padDigits 16 16 seq) := by
  unfold memberCandidateKey candidateKey
  rw [← List.append_assoc, ← memberTag_eq]
  rfl

/-- A member's key names the room and the member, for codes of one length. -/
theorem memberKey_inj (hlen : code.length = code'.length)
    (h : memberKey code pid = memberKey code' pid') : code = code' ∧ pid = pid' := by
  obtain ⟨htag, hpid⟩ := List.append_inj h (by simp [candidateTag, hlen])
  exact ⟨(List.append_inj htag hlen).1, hpid⟩

/-- A candidate's key names the room, the member and the number. -/
theorem memberCandidateKey_inj {seq seq' : ℕ} (hlen : code.length = code'.length)
    (hseq : seq < 2 ^ 64) (hseq' : seq' < 2 ^ 64)
    (h : memberCandidateKey code pid seq = memberCandidateKey code' pid' seq') :
    code = code' ∧ pid = pid' ∧ seq = seq' := by
  obtain ⟨htag, hdigits⟩ := List.append_inj' h (by simp)
  obtain ⟨hcode, hpid⟩ := memberKey_inj hlen (List.append_inj' htag rfl).1
  exact ⟨hcode, hpid, padDigits_inj (by norm_num) le_rfl (by omega) (by omega) hdigits⟩

/-- The keys of a room's candidates start with its tag. -/
theorem candidateTag_prefix_memberCandidateKey (code pid : List UInt8) (seq : ℕ) :
    candidateTag code <+: memberCandidateKey code pid seq := by
  rw [memberCandidateKey_eq]
  exact List.prefix_append _ _

/-- The scan for the candidates of `pid` finds a candidate of `q` in the same room when `q` is `pid`
or continues it behind a colon. -/
theorem memberTag_prefix_iff {q : List UInt8} {seq : ℕ} (hlen : code.length = code'.length) :
    memberTag code pid <+: memberCandidateKey code' q seq ↔
      code = code' ∧ (q = pid ∨ candidateTag pid <+: q) := by
  have hcolon : 58 ∉ padDigits 16 16 seq := colon_notMem_padDigits (by norm_num) le_rfl 16 seq
  rw [memberTag_eq, memberCandidateKey_eq]
  constructor
  · rintro ⟨r, hr⟩
    rw [List.append_assoc] at hr
    obtain ⟨htag, hrest⟩ := List.append_inj hr (by simp [candidateTag, hlen])
    exact ⟨(List.append_inj htag hlen).1, (candidateTag_prefix_iff hcolon).mp ⟨r, hrest⟩⟩
  · rintro ⟨rfl, hq⟩
    exact (List.prefix_append_right_inj _).mpr ((candidateTag_prefix_iff hcolon).mpr hq)

/-- The id in the key of a candidate, behind the nine digits of the code and a colon and before a
colon and the sixteen digits of the number. -/
def candidateId (key : List UInt8) : List UInt8 := (key.drop 10).take (key.length - 27)

/-- The id of a participant is read from the key of a candidate. -/
theorem candidateId_memberCandidateKey (hcode : code.length = 9) (pid : List UInt8) (seq : ℕ) :
    candidateId (memberCandidateKey code pid seq) = pid := by
  have hten : (candidateTag code).length = 10 := by simp [candidateTag, hcode]
  have hlen : (memberCandidateKey code pid seq).length - 27 = pid.length := by
    rw [memberCandidateKey_eq, List.length_append, hten]
    simp [candidateTag]
    omega
  unfold candidateId
  rw [hlen, memberCandidateKey_eq, List.drop_left' hten, candidateTag, List.append_assoc,
    List.take_left]

/-! ## Rosters -/

/-- Who has joined each room since it was created, with the key registered last, and what each has
published there since, oldest first, with the numbers drawn for it. -/
structure Rosters where
  joined : List UInt8 → List UInt8 → Option (List UInt8)
  published : List UInt8 → List UInt8 → List (ℕ × List UInt8)

namespace Rosters

/-- No room. -/
def empty : Rosters := ⟨fun _ _ => none, fun _ _ => []⟩

/-- A new room has an empty roster. -/
def create (r : Rosters) (code : List UInt8) : Rosters :=
  ⟨Function.update r.joined code fun _ => none, Function.update r.published code fun _ => []⟩

/-- A participant joins, or joins again with another key. -/
def join (r : Rosters) (code pid pubkey : List UInt8) : Rosters :=
  { r with
    joined := Function.update r.joined code (Function.update (r.joined code) pid (some pubkey)) }

/-- A participant publishes a candidate. -/
def publish (r : Rosters) (code pid : List UInt8) (seq : ℕ) (candidate : List UInt8) : Rosters :=
  { r with
    published := Function.update r.published code
      (Function.update (r.published code) pid (r.published code pid ++ [(seq, candidate)])) }

/-- One entry of a function of two arguments is set. -/
theorem update_update_apply {β : Type} (f : List UInt8 → List UInt8 → β)
    (code pid c p : List UInt8) (v : β) :
    Function.update f code (Function.update (f code) pid v) c p
      = if c = code ∧ p = pid then v else f c p := by
  by_cases hc : c = code
  · subst hc
    by_cases hp : p = pid
    · subst hp
      simp
    · simp [hp]
  · simp [hc]

/-- A join concerns one participant of one room. -/
theorem joined_join (r : Rosters) (code pid pubkey c p : List UInt8) :
    (r.join code pid pubkey).joined c p
      = if c = code ∧ p = pid then some pubkey else r.joined c p :=
  update_update_apply r.joined code pid c p _

/-- So does a candidate. -/
theorem published_publish (r : Rosters) (code pid : List UInt8) (seq : ℕ)
    (candidate c p : List UInt8) :
    (r.publish code pid seq candidate).published c p
      = if c = code ∧ p = pid then r.published code pid ++ [(seq, candidate)]
        else r.published c p :=
  update_update_apply r.published code pid c p _

/-- What a participant has published is what it had published before and the new candidate. -/
theorem mem_published_publish {r : Rosters} {code pid candidate c p : List UInt8} {seq : ℕ}
    {a : ℕ × List UInt8} :
    a ∈ (r.publish code pid seq candidate).published c p ↔
      a ∈ r.published c p ∨ c = code ∧ p = pid ∧ a = (seq, candidate) := by
  rw [published_publish]
  by_cases hkey : c = code ∧ p = pid
  · obtain ⟨rfl, rfl⟩ := hkey
    simp
  · rw [if_neg hkey]
    exact (or_iff_left fun h => hkey ⟨h.1, h.2.1⟩).symm

end Rosters

/-- A request with the clock reading at which it is handled, a request of the two-party handlers
that draws a code or a candidate number from the same counters, or a restart of the process. -/
inductive RoomEvent
  | postRoom (now : ℤ)
  | join (now : ℤ) (code pid pubkey : List UInt8)
  | candidate (now : ℤ) (code pid candidate : List UInt8)
  | getRoom (now : ℤ) (code : List UInt8)
  | drawCode
  | drawSeq
  | restart
  deriving DecidableEq

/-- The store with the rosters that the requests so far give. -/
structure RoomWorld where
  st : RoomStore
  rosters : Rosters

namespace RoomWorld

/-- An empty store and a new process. -/
def start : RoomWorld := ⟨.empty, .empty⟩

/-- One event. A participant has joined when the request was answered with `OK`, and has published
when it was accepted. -/
def step (w : RoomWorld) : RoomEvent → RoomWorld
  | .postRoom now =>
    let (code, st) := w.st.postRoom now
    ⟨st, w.rosters.create code⟩
  | .join now code pid pubkey =>
    let (status, st) := w.st.postRoomJoin now code pid pubkey
    ⟨st, if status = .ok then w.rosters.join code pid pubkey else w.rosters⟩
  | .candidate now code pid candidate =>
    let (status, st) := w.st.postRoomCandidate now code pid candidate
    ⟨st, if status = .accepted then w.rosters.publish code pid w.st.candSeq candidate
      else w.rosters⟩
  | .getRoom now code => ⟨(w.st.getRoom now code).2, w.rosters⟩
  | .drawCode => ⟨w.st.genCode.2, w.rosters⟩
  | .drawSeq => ⟨w.st.nextCandidateSeq.2, w.rosters⟩
  | .restart => ⟨w.st.restart, w.rosters⟩

/-- The isolation of rooms at one event: what `get_room` answers is the roster of the room. It lists
each participant that has joined once, with the key registered last and the candidates published, in
order, and nobody else. -/
def Isolated (w : RoomWorld) : RoomEvent → Prop
  | .getRoom now code =>
    ∀ ps, (w.st.getRoom now code).1 = some ps →
      (ps.map Participant.id).Nodup ∧
        ∀ p, p ∈ ps ↔ w.rosters.joined code p.id = some p.pubkey ∧
          p.candidates = (w.rosters.published code p.id).map Prod.snd
  | _ => True

/-- The condition on a request that passes the handler's checks. A room is created under a code
without stored members. A participant that joins finds no stored candidate in the room of an id that
continues its own behind a colon. A candidate comes from a participant whose id does not continue
that of a stored member behind a colon, and its number is above those of the participant's
candidates. -/
def RoomOk (w : RoomWorld) : RoomEvent → Prop
  | .postRoom _ => w.st.roomParticipants (formatCode w.st.codeSeq) = []
  | .join now code pid _ =>
    w.st.MayJoin now code pid →
      ∀ e ∈ scanPrefix w.st.roomCandidates (candidateTag code),
        ¬ candidateTag pid <+: candidateId e.1
  | .candidate now code pid _ =>
    w.st.MayPublish now code pid →
      (∀ p ∈ w.st.roomParticipants code, ¬ candidateTag p <+: pid) ∧
        ∀ a ∈ w.rosters.published code pid, a.1 < w.st.candSeq
  | _ => True

/-- Whether an event meets the condition can be decided. -/
instance (w : RoomWorld) : ∀ e, Decidable (w.RoomOk e)
  | .postRoom _ => inferInstanceAs (Decidable (_ = _))
  | .join _ _ _ _ => inferInstanceAs (Decidable (_ → ∀ e ∈ scanPrefix _ _, _))
  | .candidate _ code _ _ =>
    inferInstanceAs (Decidable (_ → (∀ p ∈ w.st.roomParticipants code, _) ∧ ∀ a ∈ _, _))
  | .getRoom _ _ | .drawCode | .drawSeq | .restart => isTrue trivial

end RoomWorld

/-! ## The store holds the rosters -/

/-- The trees hold exactly the rosters: a member's record is its last key, the candidate records are
the published ones under ascending numbers, only members have published, and no member's id behind a
colon starts the id of one that has. All codes have nine digits. -/
structure Holds (st : RoomStore) (r : Rosters) : Prop where
  room_length : ∀ code v, st.rooms.lookup code = some v → code.length = 9
  member_key : ∀ k v, st.roomMembers.lookup k = some v →
    ∃ code pid, code.length = 9 ∧ k = memberKey code pid
  member : ∀ code pid, code.length = 9 →
    st.roomMembers.lookup (memberKey code pid) = r.joined code pid
  candidate_key : ∀ k v, st.roomCandidates.lookup k = some v →
    ∃ code pid seq, code.length = 9 ∧ k = memberCandidateKey code pid seq ∧
      (seq, v) ∈ r.published code pid
  candidate : ∀ code pid a, code.length = 9 → a ∈ r.published code pid →
    st.roomCandidates.lookup (memberCandidateKey code pid a.1) = some a.2
  ascending : ∀ code pid, (r.published code pid).Pairwise fun a b => a.1 < b.1
  seq_lt : ∀ code pid, ∀ a ∈ r.published code pid, a.1 < 2 ^ 64
  joined_of_published : ∀ code pid, code.length = 9 → r.published code pid ≠ [] →
    r.joined code pid ≠ none
  apart : ∀ code p q, code.length = 9 → r.joined code p ≠ none → r.published code q ≠ [] →
    ¬ candidateTag p <+: q
  candSeq_lt : st.candSeq < 2 ^ 64

namespace Holds

variable {st st' : RoomStore} {r : Rosters}

/-- Empty stores hold empty rosters. -/
theorem empty : Holds .empty .empty where
  room_length _ _ h := by simp [RoomStore.empty] at h
  member_key _ _ h := by simp [RoomStore.empty] at h
  member _ _ _ := rfl
  candidate_key _ _ h := by simp [RoomStore.empty] at h
  candidate _ _ _ _ h := by simp [Rosters.empty] at h
  ascending _ _ := List.Pairwise.nil
  seq_lt _ _ _ h := by simp [Rosters.empty] at h
  joined_of_published _ _ _ h := absurd rfl h
  apart _ _ _ _ h _ := absurd rfl h
  candSeq_lt := by decide

/-- What does not touch the members and the candidates, and adds no rooms but under nine digits,
leaves the rosters held. -/
theorem of_rooms (h : Holds st r) (hmembers : st'.roomMembers = st.roomMembers)
    (hcandidates : st'.roomCandidates = st.roomCandidates)
    (hrooms : ∀ code v, st'.rooms.lookup code = some v → code.length = 9)
    (hseq : st'.candSeq < 2 ^ 64) : Holds st' r where
  room_length := hrooms
  member_key := hmembers ▸ h.member_key
  member := hmembers ▸ h.member
  candidate_key := hcandidates ▸ h.candidate_key
  candidate := hcandidates ▸ h.candidate
  ascending := h.ascending
  seq_lt := h.seq_lt
  joined_of_published := h.joined_of_published
  apart := h.apart
  candSeq_lt := hseq

/-- Removing a room leaves the rosters held. -/
theorem erase_room (h : Holds st r) (code : List UInt8) :
    Holds { st with rooms := st.rooms.erase code } r :=
  h.of_rooms rfl rfl (fun c v hv => h.room_length c v (lookup_of_erase hv)) h.candSeq_lt

/-- The members of a room are those that have joined it. -/
theorem mem_roomParticipants (h : Holds st r) (hcode : code.length = 9) :
    pid ∈ st.roomParticipants code ↔ r.joined code pid ≠ none := by
  rw [RoomStore.mem_roomParticipants, RoomStore.participantPubkey, h.member code pid hcode]

/-- A room whose members are not stored has an empty roster. -/
theorem create_eq (h : Holds st r) (hcode : code.length = 9)
    (hnone : st.roomParticipants code = []) : r.create code = r := by
  have hjoined : ∀ p, r.joined code p = none := by
    intro p
    by_contra hp
    have hmem := (h.mem_roomParticipants hcode).mpr hp
    rw [hnone] at hmem
    exact List.not_mem_nil hmem
  have hpublished : ∀ p, r.published code p = [] := by
    intro p
    by_contra hp
    exact h.joined_of_published code p hcode hp (hjoined p)
  obtain ⟨joined, published⟩ := r
  unfold Rosters.create
  congr
  · rw [Function.update_eq_self_iff]
    exact funext fun p => (hjoined p).symm
  · rw [Function.update_eq_self_iff]
    exact funext fun p => (hpublished p).symm

/-- A new room under a code without members leaves the rosters held. -/
theorem postRoom (h : Holds st r) (now : ℤ)
    (hnone : st.roomParticipants (formatCode st.codeSeq) = []) :
    Holds (st.postRoom now).2 (r.create (st.postRoom now).1) := by
  have hcode : (formatCode st.codeSeq).length = 9 := by simp [formatCode]
  have hcreate : r.create (st.postRoom now).1 = r := h.create_eq hcode hnone
  rw [hcreate]
  refine h.of_rooms rfl rfl (fun c v hv => ?_) h.candSeq_lt
  rcases lookup_of_insert hv with rfl | hv
  · exact hcode
  · exact h.room_length c v hv

/-- A room in which a participant has published a candidate under an id has the id among the stored
candidates. -/
theorem mem_scanPrefix_of_published (h : Holds st r) (hcode : code.length = 9) {q : List UInt8}
    (hq : r.published code q ≠ []) :
    ∃ e ∈ scanPrefix st.roomCandidates (candidateTag code), candidateId e.1 = q := by
  obtain ⟨a, ha⟩ := List.exists_mem_of_ne_nil _ hq
  refine ⟨⟨memberCandidateKey code q a.1, a.2⟩, mem_scanPrefix.mpr ⟨?_, ?_⟩, ?_⟩
  · exact candidateTag_prefix_memberCandidateKey code q a.1
  · exact h.candidate code q a hcode ha
  · exact candidateId_memberCandidateKey hcode q a.1

/-- A participant joins whose id, behind a colon, starts no id that has published. -/
theorem join (h : Holds st r) (hcode : code.length = 9) (pubkey : List UInt8)
    (hok : ∀ e ∈ scanPrefix st.roomCandidates (candidateTag code),
      ¬ candidateTag pid <+: candidateId e.1) :
    Holds { st with roomMembers := st.roomMembers.insert (memberKey code pid) pubkey }
      (r.join code pid pubkey) := by
  -- Who was a member stays one.
  have hjoined : ∀ c p, r.joined c p ≠ none → (r.join code pid pubkey).joined c p ≠ none := by
    intro c p hp
    rw [Rosters.joined_join]
    split
    · exact Option.some_ne_none _
    · exact hp
  -- Only the parts about members change.
  refine { h with member_key := ?_, member := ?_, joined_of_published := ?_, apart := ?_ }
  · intro k v hv
    rcases lookup_of_insert hv with rfl | hv
    · exact ⟨code, pid, hcode, rfl⟩
    · exact h.member_key k v hv
  · intro c p hc
    rw [Rosters.joined_join]
    by_cases hkey : c = code ∧ p = pid
    · obtain ⟨rfl, rfl⟩ := hkey
      rw [if_pos ⟨rfl, rfl⟩]
      exact AList.lookup_insert _
    · have hne : memberKey c p ≠ memberKey code pid :=
        fun heq => hkey (memberKey_inj (hc.trans hcode.symm) heq)
      rw [if_neg hkey, ← h.member c p hc]
      exact AList.lookup_insert_ne hne
  · exact fun c p hc hp => hjoined c p (h.joined_of_published c p hc hp)
  · intro c p q hc hp hq
    rw [Rosters.joined_join] at hp
    by_cases hkey : c = code ∧ p = pid
    · obtain ⟨rfl, rfl⟩ := hkey
      obtain ⟨e, he, hid⟩ := h.mem_scanPrefix_of_published hcode hq
      exact hid ▸ hok e he
    · rw [if_neg hkey] at hp
      exact h.apart c p q hc hp hq

/-- A member publishes a candidate with a number above those of its others, and its id continues no
member's id behind a colon. -/
theorem publish (h : Holds st r) (hcode : code.length = 9) (candidate : List UInt8)
    (hmember : r.joined code pid ≠ none)
    (hapart : ∀ p ∈ st.roomParticipants code, ¬ candidateTag p <+: pid)
    (hseq : ∀ a ∈ r.published code pid, a.1 < st.candSeq) :
    Holds (st.nextCandidateSeq.2.addRoomCandidate code pid st.candSeq candidate)
      (r.publish code pid st.candSeq candidate) := by
  -- The new key differs from all before, for its sequence number does.
  have hne : ∀ c p a, c.length = 9 → a ∈ r.published c p →
      memberCandidateKey c p a.1 ≠ memberCandidateKey code pid st.candSeq := by
    intro c p a hc ha heq
    obtain ⟨rfl, rfl, hsame⟩ := memberCandidateKey_inj (hc.trans hcode.symm) (h.seq_lt c p a ha)
      h.candSeq_lt heq
    exact absurd hsame (hseq a ha).ne
  refine
    { room_length := h.room_length, member_key := h.member_key, member := h.member,
      candidate_key := ?_, candidate := ?_, ascending := ?_, seq_lt := ?_,
      joined_of_published := ?_, apart := ?_, candSeq_lt := Nat.mod_lt _ (by norm_num) }
  · intro k v hv
    change (st.roomCandidates.insert (memberCandidateKey code pid st.candSeq) candidate).lookup k
      = some v at hv
    by_cases hk : k = memberCandidateKey code pid st.candSeq
    · rw [hk, AList.lookup_insert, Option.some.injEq] at hv
      exact ⟨code, pid, st.candSeq, hcode, hk,
        Rosters.mem_published_publish.mpr (Or.inr ⟨rfl, rfl, by rw [hv]⟩)⟩
    · rw [AList.lookup_insert_ne hk] at hv
      obtain ⟨c, p, seq, hc, rfl, hmem⟩ := h.candidate_key k v hv
      exact ⟨c, p, seq, hc, rfl, Rosters.mem_published_publish.mpr (Or.inl hmem)⟩
  · intro c p a hc ha
    rcases Rosters.mem_published_publish.mp ha with ha | ⟨rfl, rfl, rfl⟩
    · exact (AList.lookup_insert_ne (hne c p a hc ha)).trans (h.candidate c p a hc ha)
    · exact AList.lookup_insert _
  · intro c p
    rw [Rosters.published_publish]
    by_cases hkey : c = code ∧ p = pid
    · rw [if_pos hkey, List.pairwise_append]
      refine ⟨h.ascending code pid, List.pairwise_singleton _ _, ?_⟩
      intro a ha b hb
      rw [List.mem_singleton.mp hb]
      exact hseq a ha
    · rw [if_neg hkey]
      exact h.ascending c p
  · intro c p a ha
    rcases Rosters.mem_published_publish.mp ha with ha | ⟨-, -, rfl⟩
    · exact h.seq_lt c p a ha
    · exact h.candSeq_lt
  · intro c p hc hp
    obtain ⟨a, ha⟩ := List.exists_mem_of_ne_nil _ hp
    rcases Rosters.mem_published_publish.mp ha with ha | ⟨rfl, rfl, -⟩
    · exact h.joined_of_published c p hc (List.ne_nil_of_mem ha)
    · exact hmember
  · intro c p q hc hp hq
    obtain ⟨a, ha⟩ := List.exists_mem_of_ne_nil _ hq
    rcases Rosters.mem_published_publish.mp ha with ha | ⟨rfl, rfl, -⟩
    · exact h.apart c p q hc hp (List.ne_nil_of_mem ha)
    · exact hapart p ((h.mem_roomParticipants hc).mpr hp)

/-- A refused request leaves the rosters held. -/
theorem of_refused (h : Holds st r) (code : List UInt8)
    (hst : st' = st ∨ st' = { st with rooms := st.rooms.erase code }) : Holds st' r := by
  rcases hst with rfl | rfl
  · exact h
  · exact h.erase_room code

/-- The scan for a member's candidates yields what the member has published, in order. -/
theorem participantCandidates_eq (h : Holds st r) (hcode : code.length = 9)
    (hmember : r.joined code pid ≠ none) :
    st.participantCandidates code pid = (r.published code pid).map Prod.snd := by
  -- The scan finds the member's candidates, in the order of their numbers.
  have hscan : scanPrefix st.roomCandidates (memberTag code pid)
      = (r.published code pid).map fun a => ⟨memberCandidateKey code pid a.1, a.2⟩ := by
    refine scanPrefix_eq ?_ fun k v => ?_
    · rw [List.pairwise_map]
      refine (h.ascending code pid).imp_of_mem fun {a b} _ hb hlt => ?_
      refine List.append_left_lt (padDigits_lt (by norm_num) le_rfl ?_ hlt)
      exact (h.seq_lt code pid b hb).trans_eq (by norm_num)
    · rw [List.mem_map]
      constructor
      · rintro ⟨a, ha, heq⟩
        obtain ⟨rfl, rfl⟩ := Sigma.mk.inj_iff.mp heq
        exact ⟨(memberTag_prefix_iff rfl).mpr ⟨rfl, Or.inl rfl⟩, h.candidate code pid a hcode ha⟩
      · rintro ⟨hpre, hv⟩
        obtain ⟨c, q, seq, hc, rfl, hmem⟩ := h.candidate_key k v hv
        obtain ⟨rfl, rfl | htag⟩ := (memberTag_prefix_iff (hcode.trans hc.symm)).mp hpre
        · exact ⟨(seq, v), hmem, rfl⟩
        · exact absurd htag (h.apart code pid q hcode hmember (List.ne_nil_of_mem hmem))
  unfold RoomStore.participantCandidates
  rw [hscan, List.map_map]
  rfl

/-- A held room is listed as its roster. -/
theorem isolated {w : RoomWorld} (h : Holds w.st w.rosters) (e : RoomEvent) : w.Isolated e := by
  cases e with
  | getRoom now code =>
    intro ps hps
    -- The room is there, or nothing is answered.
    obtain ⟨⟨v, hv⟩, hget⟩ | ⟨hnone, -⟩ := w.st.getRoom_cases now code
    · have hcode := h.room_length code v hv
      rw [hget] at hps
      obtain rfl := Option.some.inj hps
      constructor
      · rw [List.map_map]
        exact (List.map_id _).symm ▸ w.st.nodup_roomParticipants code
      · rintro ⟨pid, pubkey, candidates⟩
        rw [List.mem_map]
        constructor
        · rintro ⟨q, hq, heq⟩
          obtain ⟨rfl, rfl, rfl⟩ := Participant.mk.inj heq
          have hjoined := (h.mem_roomParticipants hcode).mp hq
          obtain ⟨pubkey, hpubkey⟩ := Option.ne_none_iff_exists'.mp hjoined
          refine ⟨?_, h.participantCandidates_eq hcode hjoined⟩
          unfold RoomStore.participantPubkey
          rw [h.member code q hcode, hpubkey]
          rfl
        · rintro ⟨hjoined, hcandidates⟩
          dsimp only at hjoined hcandidates
          have hne : w.rosters.joined code pid ≠ none := by rw [hjoined]; simp
          refine ⟨pid, (h.mem_roomParticipants hcode).mpr hne, ?_⟩
          unfold RoomStore.participantPubkey
          rw [h.member code pid hcode, hjoined, h.participantCandidates_eq hcode hne, hcandidates]
          rfl
    · rw [hnone] at hps
      cases hps
  | _ => trivial

/-- Every event that meets the condition keeps the rosters held. -/
theorem step (w : RoomWorld) (e : RoomEvent) (h : Holds w.st w.rosters) (hok : w.RoomOk e) :
    Holds (w.step e).st (w.step e).rosters := by
  cases e with
  | postRoom now => exact h.postRoom now hok
  | join now code pid pubkey =>
    unfold RoomWorld.step
    obtain ⟨⟨v, hv⟩, hmay, hjoin⟩ | ⟨hne, hst⟩ := w.st.postRoomJoin_cases now code pid pubkey
    · simp only [hjoin, if_true]
      exact h.join (h.room_length code v hv) pubkey (hok hmay)
    · simp only [if_neg hne]
      exact h.of_refused code hst
  | candidate now code pid candidate =>
    unfold RoomWorld.step
    obtain ⟨⟨v, hv⟩, hmay, hpost⟩ | ⟨hne, hst⟩ :=
      w.st.postRoomCandidate_cases now code pid candidate
    · have hcode := h.room_length code v hv
      simp only [hpost, if_true]
      obtain ⟨hapart, hseq⟩ := hok hmay
      exact h.publish hcode candidate (h.member code pid hcode ▸ hmay.2) hapart hseq
    · simp only [if_neg hne]
      exact h.of_refused code hst
  | getRoom now code =>
    obtain ⟨-, hget⟩ | ⟨-, hst⟩ := w.st.getRoom_cases now code
    · exact h.of_refused code (Or.inl (congrArg Prod.snd hget))
    · exact h.of_refused code hst
  | drawCode => exact h.of_rooms rfl rfl h.room_length h.candSeq_lt
  | drawSeq => exact h.of_rooms rfl rfl h.room_length (Nat.mod_lt _ (by norm_num))
  -- All is lost, so there is nothing to keep.
  | restart => exact h.of_rooms rfl rfl h.room_length (Nat.two_pow_pos 64)

end Holds

namespace RoomWorld

open World (firstCode)

/-- In every run whose requests all meet the condition, every answer of `get_room` is the roster of
the room. -/
theorem rooms_isolated (es : List RoomEvent) (hes : Guarded step RoomOk start es) :
    Guarded step Isolated start es :=
  guarded_of_invariant Holds.step (fun _ e h _ => h.isolated e) hes Holds.empty

/-- The condition is met by two participants that join, publish and join again with another key. -/
theorem rooms_isolated_two_members :
    Guarded step Isolated start
      [.postRoom 0, .join 1 firstCode [97] [1], .candidate 2 firstCode [97] [7],
        .join 3 firstCode [98] [2], .candidate 4 firstCode [98] [8],
        .candidate 5 firstCode [97] [9], .join 6 firstCode [97] [3], .getRoom 7 firstCode] :=
  rooms_isolated _ (by decide +kernel)

/-- `a` and `a:b` join a room, `a:b` publishes a candidate, and `get_room` lists it under `a`. -/
theorem not_rooms_isolated :
    ¬ ∀ es, Guarded step Isolated start es := by
  intro hall
  have h := hall [.postRoom 0, .join 1 firstCode [97] [1], .join 1 firstCode [97, 58, 98] [2],
    .candidate 2 firstCode [97, 58, 98] [7], .getRoom 3 firstCode]
  obtain ⟨-, hlist⟩ := h.2.2.2.2.1
    [⟨[97], [1], [[7]]⟩, ⟨[97, 58, 98], [2], [[7]]⟩] (by decide +kernel)
  have hpublished := ((hlist ⟨[97], [1], [[7]]⟩).mp (by simp)).2
  revert hpublished
  decide +kernel

end RoomWorld

end LowBand.Signaling
