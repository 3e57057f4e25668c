import LowBand.Lib.Ascii
import LowBand.Lib.Run
import Mathlib.Data.List.AList
import Mathlib.Data.List.Sort

/-!
# The signaling server

`lib.rs` of the signaling crate keeps the sessions, offers, answers and candidates in four `sled`
trees, which outlive the process, and takes session codes and candidate keys from two counters,
which do not. A `World` is the server with the number of the step that wrote each record.

Every record of a code is posted while a session with that code is live, hence after it was created,
so as long as no code is handed out while the store still holds records under it, a session sees
only what was posted for it: this is `Inv`, kept by every handler, and `isolated_of_codes_unused`.
One process meets the condition for `10^9` codes (`codes_unused_of_one_process`). A restart sets the
counter back, and the next session gets the code, and the offer, of an old one
(`restart_reuses_codes`).
-/

namespace LowBand.Signaling

open Lib

/-! ## The store -/

/-- A `sled` tree: byte keys and byte values, every key once. -/
abbrev Tree := AList fun _ : List UInt8 => List UInt8

/-- The entries whose keys start with `pre`, in the order of their keys. -/
def scanPrefix (t : Tree) (pre : List UInt8) : List (Σ _ : List UInt8, List UInt8) :=
  (t.entries.filter fun e => pre.isPrefixOf e.1).insertionSort fun a b => a.1 ≤ b.1

/-- A scan yields the entries of the tree with the prefix. -/
theorem mem_scanPrefix {t : Tree} {pre k v : List UInt8} :
    ⟨k, v⟩ ∈ scanPrefix t pre ↔ pre <+: k ∧ t.lookup k = some v := by
  have hlookup : t.lookup k = some v ↔ ⟨k, v⟩ ∈ t.entries := AList.mem_lookup_iff
  rw [scanPrefix, List.mem_insertionSort, List.mem_filter, List.isPrefixOf_iff_prefix, hlookup]
  exact and_comm

/-- A scan yields no key twice. -/
theorem nodup_scanPrefix (t : Tree) (pre : List UInt8) :
    ((scanPrefix t pre).map Sigma.fst).Nodup := by
  have hperm := List.perm_insertionSort (fun a b : Σ _ : List UInt8, List UInt8 => a.1 ≤ b.1)
    (t.entries.filter fun e => pre.isPrefixOf e.1)
  have hkeys : (t.entries.map Sigma.fst).Nodup := t.nodupKeys
  exact ((hperm.map Sigma.fst).nodup_iff).mpr (hkeys.sublist (List.filter_sublist.map _))

/-- A scan yields the keys in order. -/
theorem pairwise_scanPrefix (t : Tree) (pre : List UInt8) :
    (scanPrefix t pre).Pairwise fun a b => a.1 ≤ b.1 := by
  have htotal : Std.Total fun a b : Σ _ : List UInt8, List UInt8 => a.1 ≤ b.1 :=
    ⟨fun a b => List.le_total a.1 b.1⟩
  have htrans : IsTrans (Σ _ : List UInt8, List UInt8) fun a b => a.1 ≤ b.1 :=
    ⟨fun _ _ _ => List.le_trans⟩
  exact List.pairwise_insertionSort _ _

/-- A list in ascending order of its keys that has exactly the entries with the prefix is what the
scan yields. -/
theorem scanPrefix_eq {t : Tree} {pre : List UInt8} {l : List (Σ _ : List UInt8, List UInt8)}
    (hsorted : l.Pairwise fun a b => a.1 < b.1)
    (hmem : ∀ k v, ⟨k, v⟩ ∈ l ↔ pre <+: k ∧ t.lookup k = some v) : scanPrefix t pre = l := by
  have hnodup : l.Nodup := by
    refine hsorted.imp ?_
    rintro a _ hlt rfl
    exact List.lt_irrefl _ hlt
  have hperm : (scanPrefix t pre).Perm l := by
    rw [List.perm_ext_iff_of_nodup (List.Nodup.of_map _ (nodup_scanPrefix t pre)) hnodup]
    exact fun e => mem_scanPrefix.trans (hmem e.1 e.2).symm
  refine hperm.eq_of_pairwise ?_ (pairwise_scanPrefix t pre) (hsorted.imp List.le_of_lt)
  rintro ⟨k, v⟩ ⟨k', v'⟩ ha hb hle hge
  obtain rfl : k = k' := List.le_antisymm hle hge
  have hv := (mem_scanPrefix.mp ha).2.symm.trans ((hmem k v').mp hb).2
  rw [Option.some.inj hv]

/-- An entry behind all others of a scan is scanned last. -/
theorem scanPrefix_insert_last {t : Tree} {pre k v : List UInt8} (hpre : pre <+: k)
    (hlast : ∀ e ∈ scanPrefix t pre, e.1 < k) :
    scanPrefix (t.insert k v) pre = scanPrefix t pre ++ [⟨k, v⟩] := by
  have hnodup : (scanPrefix t pre).Pairwise fun a b => a.1 ≠ b.1 :=
    List.pairwise_map.mp (nodup_scanPrefix t pre)
  refine scanPrefix_eq ?_ fun k' v' => ?_
  · refine List.pairwise_append.mpr ⟨?_, List.pairwise_singleton _ _, fun a ha b hb => ?_⟩
    · refine ((pairwise_scanPrefix t pre).and hnodup).imp fun {a b} h => ?_
      exact (List.le_iff_lt_or_eq.mp h.1).resolve_right h.2
    · rw [List.mem_singleton.mp hb]
      exact hlast a ha
  · have hfresh : ∀ u, ⟨k, u⟩ ∉ scanPrefix t pre := fun u hu => List.lt_irrefl k (hlast _ hu)
    rw [List.mem_append, List.mem_singleton]
    by_cases hk : k' = k
    · subst hk
      simp [hfresh, hpre, eq_comm]
    · simp [hk, mem_scanPrefix]

/-- The trees of `AppState` that the two-party handlers use, with the two counters of the
process. -/
structure AppState where
  /-- Code to expiry, creation time and public key. -/
  sessionCodes : Tree
  /-- `{code}:{seq}` to candidate. -/
  iceCandidates : Tree
  /-- Code to offer. -/
  offers : Tree
  /-- Code to answer. -/
  answers : Tree
  /-- `CODE_SEQ`. -/
  codeSeq : ℕ
  /-- `CAND_SEQ`. -/
  candSeq : ℕ

/-- The first value of `CODE_SEQ` in a process. -/
def codeSeqStart : ℕ := 100000000

/-- `SESSION_TTL` in seconds. -/
def sessionTtl : ℤ := 300

/-- An empty store and a new process. -/
def AppState.empty : AppState := ⟨∅, ∅, ∅, ∅, codeSeqStart, 0⟩

/-- The record of a session: its expiry, its creation time and a public key. -/
def encodeEntry (createdAt expiresAt : ℤ) (pubkey : List UInt8) : List UInt8 :=
  leBytesI64 expiresAt ++ leBytesI64 createdAt ++ pubkey

/-- The expiry in a record. -/
def decodeExpiresAt (bytes : List UInt8) : Option ℤ :=
  if 8 ≤ bytes.length then some (ofLEI64 (bytes.take 8)) else none

/-- The code of a counter value: its last nine decimal digits. -/
def formatCode (seq : ℕ) : List UInt8 := padDigits 10 9 (seq % 1000000000)

/-- The prefix `{code}:` of the keys of a code's candidates. -/
def candidateTag (code : List UInt8) : List UInt8 := code ++ [58]

/-- The key `{code}:{seq:016x}` of a candidate. -/
def candidateKey (code : List UInt8) (seq : ℕ) : List UInt8 :=
  candidateTag code ++ padDigits 16 16 seq

/-! ## The handlers -/

/-- The HTTP status of a response. -/
inductive StatusCode where
  | ok
  | created
  | accepted
  | notFound
deriving DecidableEq

/-- The body of a successful `get_join`. -/
structure JoinInfo where
  /-- The code asked for. -/
  sessionCode : List UInt8
  /-- The pending offer. -/
  offer : Option (List UInt8)
  /-- The pending candidates. -/
  candidates : List (List UInt8)
deriving DecidableEq

namespace AppState

variable (st : AppState)

/-- `gen_code`. -/
def genCode : List UInt8 × AppState :=
  (formatCode st.codeSeq, { st with codeSeq := (st.codeSeq + 1) % 2 ^ 64 })

/-- `next_candidate_seq`. -/
def nextCandidateSeq : ℕ × AppState :=
  (st.candSeq, { st with candSeq := (st.candSeq + 1) % 2 ^ 64 })

/-- A session with this code exists and has not expired at `now`. -/
def live (now : ℤ) (code : List UInt8) : Bool :=
  match st.sessionCodes.lookup code with
  | some bytes =>
    match decodeExpiresAt bytes with
    | some exp => exp > now
    | none => false
  | none => false

/-- `check_code`. -/
def checkCode (now : ℤ) (code : List UInt8) : Except StatusCode Unit :=
  if st.live now code then .ok () else .error .notFound

/-- The pending candidates of a code. -/
def pendingCandidates (code : List UInt8) : List (List UInt8) :=
  (scanPrefix st.iceCandidates (candidateTag code)).map Sigma.snd

/-- The pending offer of a code. -/
def pendingOffer (code : List UInt8) : Option (List UInt8) := st.offers.lookup code

/-- The pending answer of a code. -/
def pendingAnswer (code : List UInt8) : Option (List UInt8) := st.answers.lookup code

/-- `post_session`: the code handed out. -/
def postSession (now : ℤ) : List UInt8 × AppState :=
  let (code, st) := st.genCode
  let entry := encodeEntry now (now + sessionTtl) []
  (code, { st with sessionCodes := st.sessionCodes.insert code entry })

/-- `get_join`; an expired record is removed. -/
def getJoin (now : ℤ) (code : List UInt8) : Except StatusCode JoinInfo × AppState :=
  match st.sessionCodes.lookup code with
  | some _ =>
    if st.live now code then
      (.ok ⟨code, st.pendingOffer code, st.pendingCandidates code⟩, st)
    else (.error .notFound, { st with sessionCodes := st.sessionCodes.erase code })
  | none => (.error .notFound, st)

/-- `get_answer`. -/
def getAnswer (now : ℤ) (code : List UInt8) : Except StatusCode (Option (List UInt8)) := do
  st.checkCode now code
  return st.pendingAnswer code

/-- `post_offer`. -/
def postOffer (now : ℤ) (code sdp : List UInt8) : Except StatusCode (StatusCode × AppState) := do
  st.checkCode now code
  return (.ok, { st with offers := st.offers.insert code sdp })

/-- `post_answer`; a body without an SDP is accepted and stores nothing. -/
def postAnswer (now : ℤ) (code : List UInt8) (sdp : Option (List UInt8)) :
    Except StatusCode (StatusCode × AppState) := do
  st.checkCode now code
  match sdp with
  | some sdp => return (.ok, { st with answers := st.answers.insert code sdp })
  | none => return (.ok, st)

/-- `post_candidate`. -/
def postCandidate (now : ℤ) (code candidate : List UInt8) :
    Except StatusCode (StatusCode × AppState) := do
  st.checkCode now code
  let (seq, st) := st.nextCandidateSeq
  return (.accepted,
    { st with iceCandidates := st.iceCandidates.insert (candidateKey code seq) candidate })

/-- `post_connected`. -/
def postConnected (now : ℤ) (code : List UInt8) : Except StatusCode (StatusCode × AppState) := do
  st.checkCode now code
  return (.ok, { st with sessionCodes := st.sessionCodes.erase code })

/-- A new process on the same store. -/
def restart : AppState := { st with codeSeq := codeSeqStart, candSeq := 0 }

end AppState

/-! ## What the handlers write -/

namespace AppState

variable {st : AppState} {now : ℤ} {code : List UInt8}

/-- A handler that checks its code first runs when the session is live and is refused otherwise. -/
theorem checkCode_bind {α : Type} (f : Unit → Except StatusCode α) :
    st.checkCode now code >>= f = if st.live now code then f () else .error .notFound := by
  unfold checkCode
  split <;> rfl

/-- A live session has a record. -/
theorem exists_record_of_live (h : st.live now code) :
    ∃ bytes, st.sessionCodes.lookup code = some bytes := by
  unfold live at h
  split at h
  · exact ⟨_, ‹_›⟩
  · simp at h

/-- `get_join` succeeds on a live session, with what is pending for the code. -/
theorem getJoin_of_live (h : st.live now code) :
    st.getJoin now code = (.ok ⟨code, st.pendingOffer code, st.pendingCandidates code⟩, st) := by
  obtain ⟨bytes, hb⟩ := exists_record_of_live h
  rw [getJoin, hb]
  exact if_pos h

/-- `get_join` is refused on a session that is not live, whose record is removed if it is there. -/
theorem getJoin_of_not_live (h : ¬ st.live now code) :
    (st.getJoin now code).1 = .error .notFound ∧
      ((st.getJoin now code).2 = st ∨
        (st.getJoin now code).2 = { st with sessionCodes := st.sessionCodes.erase code }) := by
  unfold getJoin
  split
  · rw [if_neg h]
    exact ⟨rfl, .inr rfl⟩
  · exact ⟨rfl, .inl rfl⟩

end AppState

/-! ## Runs -/

/-- A request with the clock reading at which it is handled, a request for a room, which takes its
code and its candidate numbers from the same counters, or a restart of the process. -/
inductive Event where
  | postSession (now : ℤ)
  | getJoin (now : ℤ) (code : List UInt8)
  | getAnswer (now : ℤ) (code : List UInt8)
  | postOffer (now : ℤ) (code sdp : List UInt8)
  | postAnswer (now : ℤ) (code : List UInt8) (sdp : Option (List UInt8))
  | postCandidate (now : ℤ) (code candidate : List UInt8)
  | postConnected (now : ℤ) (code : List UInt8)
  | postRoom
  | postRoomCandidate
  | restart
deriving DecidableEq

/-- The server with the history of its records: the number of the step that wrote each of them. -/
structure World where
  /-- The server. -/
  st : AppState
  /-- The number of the next step. -/
  clock : ℕ
  /-- The step that created the latest session with a code. -/
  createdAt : List UInt8 → ℕ
  /-- The step that posted the offer stored for a code. -/
  offerAt : List UInt8 → ℕ
  /-- The step that posted the answer stored for a code. -/
  answerAt : List UInt8 → ℕ
  /-- The step that posted the candidate stored under a key. -/
  candidateAt : List UInt8 → ℕ

namespace World

/-- An empty store and a new process. -/
def start : World := ⟨.empty, 1, fun _ => 0, fun _ => 0, fun _ => 0, fun _ => 0⟩

/-- One event. A refused request changes nothing but the step number. -/
def step (w : World) : Event → World
  | .postSession now =>
    let (code, st) := w.st.postSession now
    { w with
      st := st
      clock := w.clock + 1
      createdAt := Function.update w.createdAt code w.clock }
  | .getJoin now code => { w with st := (w.st.getJoin now code).2, clock := w.clock + 1 }
  | .getAnswer _ _ => { w with clock := w.clock + 1 }
  | .postOffer now code sdp =>
    match w.st.postOffer now code sdp with
    | .ok (_, st) =>
      { w with
        st := st
        clock := w.clock + 1
        offerAt := Function.update w.offerAt code w.clock }
    | .error _ => { w with clock := w.clock + 1 }
  | .postAnswer now code sdp =>
    match w.st.postAnswer now code sdp with
    | .ok (_, st) =>
      { w with
        st := st
        clock := w.clock + 1
        answerAt := if sdp.isSome then Function.update w.answerAt code w.clock
          else w.answerAt }
    | .error _ => { w with clock := w.clock + 1 }
  | .postCandidate now code candidate =>
    match w.st.postCandidate now code candidate with
    | .ok (_, st) =>
      { w with
        st := st
        clock := w.clock + 1
        candidateAt := Function.update w.candidateAt
          (candidateKey code w.st.candSeq) w.clock }
    | .error _ => { w with clock := w.clock + 1 }
  | .postConnected now code =>
    match w.st.postConnected now code with
    | .ok (_, st) => { w with st := st, clock := w.clock + 1 }
    | .error _ => { w with clock := w.clock + 1 }
  | .postRoom => { w with st := w.st.genCode.2, clock := w.clock + 1 }
  | .postRoomCandidate => { w with st := w.st.nextCandidateSeq.2, clock := w.clock + 1 }
  | .restart => { w with st := w.st.restart, clock := w.clock + 1 }

/-- The isolation of sessions at one event: a code that is handed out is not live, and what a
request for a code returns was posted after the latest session with that code was created. -/
def Isolated (w : World) : Event → Prop
  | .postSession now => w.st.live now (w.st.postSession now).1 = false
  | .getJoin now code => ∀ info, (w.st.getJoin now code).1 = .ok info →
      (info.offer ≠ none → w.createdAt code < w.offerAt code) ∧
      ∀ x ∈ scanPrefix w.st.iceCandidates (candidateTag code),
        w.createdAt code < w.candidateAt x.1
  | .getAnswer now code => ∀ answer, w.st.getAnswer now code = .ok (some answer) →
      w.createdAt code < w.answerAt code
  | _ => True

/-- The store holds no record under the code that the counter is about to yield. -/
def CodeUnused (w : World) : Event → Prop
  | .postSession _ =>
    let code := formatCode w.st.codeSeq
    w.st.sessionCodes.lookup code = none ∧ w.st.offers.lookup code = none ∧
      w.st.answers.lookup code = none ∧
      scanPrefix w.st.iceCandidates (candidateTag code) = []
  | _ => True

/-- Whether a new code is unused can be decided. -/
instance (w : World) : ∀ e, Decidable (w.CodeUnused e)
  | .postSession _ => inferInstanceAs (Decidable
      (w.st.sessionCodes.lookup (formatCode w.st.codeSeq) = none ∧
        w.st.offers.lookup (formatCode w.st.codeSeq) = none ∧
        w.st.answers.lookup (formatCode w.st.codeSeq) = none ∧
        scanPrefix w.st.iceCandidates (candidateTag (formatCode w.st.codeSeq)) = []))
  | .getJoin _ _ | .getAnswer _ _ | .postOffer _ _ _ | .postAnswer _ _ _ | .postCandidate _ _ _
  | .postConnected _ _ | .postRoom | .postRoomCandidate | .restart => isTrue trivial

/-- What every run keeps in which no code in use is handed out: the records of a code are younger
than its latest session. -/
structure Inv (w : World) : Prop where
  /-- Sessions were created before the next step. -/
  created : ∀ code, w.createdAt code < w.clock
  /-- The offer of a code is younger than its session. -/
  offer : ∀ code v, w.st.offers.lookup code = some v → w.createdAt code < w.offerAt code
  /-- The answer of a code is younger than its session. -/
  answer : ∀ code v, w.st.answers.lookup code = some v → w.createdAt code < w.answerAt code
  /-- The candidates of a code are younger than its session. -/
  candidate : ∀ code k v, candidateTag code <+: k → w.st.iceCandidates.lookup k = some v →
    w.createdAt code < w.candidateAt k

variable {w w' : World}

/-- Steps that write no offer, answer, candidate or session keep the invariant. -/
theorem Inv.of_same_records (hinv : w.Inv) (hclock : w.clock ≤ w'.clock)
    (hoffers : w'.st.offers = w.st.offers) (hanswers : w'.st.answers = w.st.answers)
    (hcands : w'.st.iceCandidates = w.st.iceCandidates) (hcreated : w'.createdAt = w.createdAt)
    (hoffer : w'.offerAt = w.offerAt) (hanswer : w'.answerAt = w.answerAt)
    (hcand : w'.candidateAt = w.candidateAt) : w'.Inv where
  created code := hcreated ▸ (hinv.created code).trans_le hclock
  offer := by rw [hoffers, hcreated, hoffer]; exact hinv.offer
  answer := by rw [hanswers, hcreated, hanswer]; exact hinv.answer
  candidate := by rw [hcands, hcreated, hcand]; exact hinv.candidate

/-- Creating a session dates no other code. -/
theorem createdAt_postSession (w : World) (now : ℤ) {code : List UInt8}
    (h : code ≠ formatCode w.st.codeSeq) :
    (w.step (.postSession now)).createdAt code = w.createdAt code :=
  Function.update_of_ne h _ _

/-- Creating a session with an unused code keeps the invariant. -/
theorem Inv.postSession (hinv : w.Inv) {now : ℤ} (hunused : w.CodeUnused (.postSession now)) :
    (w.step (.postSession now)).Inv := by
  obtain ⟨-, hoffer, hanswer, hcand⟩ := hunused
  -- a code with a record is not the one handed out
  refine ⟨fun code => ?_, fun code v hv => ?_, fun code v hv => ?_, fun code k v hk hv => ?_⟩
  · by_cases hcode : code = formatCode w.st.codeSeq
    · subst hcode
      simp [step, AppState.postSession, AppState.genCode]
    · rw [createdAt_postSession w now hcode]
      exact (hinv.created code).trans (Nat.lt_succ_self _)
  · have hv' : w.st.offers.lookup code = some v := hv
    have hcode : code ≠ formatCode w.st.codeSeq := by
      rintro rfl
      simp [hoffer] at hv'
    rw [createdAt_postSession w now hcode]
    exact hinv.offer code v hv'
  · have hv' : w.st.answers.lookup code = some v := hv
    have hcode : code ≠ formatCode w.st.codeSeq := by
      rintro rfl
      simp [hanswer] at hv'
    rw [createdAt_postSession w now hcode]
    exact hinv.answer code v hv'
  · have hv' : w.st.iceCandidates.lookup k = some v := hv
    have hcode : code ≠ formatCode w.st.codeSeq := by
      rintro rfl
      have := mem_scanPrefix.mpr ⟨hk, hv'⟩
      simp [hcand] at this
    rw [createdAt_postSession w now hcode]
    exact hinv.candidate code k v hk hv'

/-- A record inserted with the time of the step is younger than what was there before the step, and
the others are as young as they were. -/
theorem dated_of_lookup_insert {t : Tree} {date : List UInt8 → ℕ} {before now : ℕ}
    {key x k v : List UInt8} (hnow : before < now)
    (hold : ∀ v, t.lookup k = some v → before < date k)
    (h : (t.insert key x).lookup k = some v) : before < Function.update date key now k := by
  by_cases hk : k = key
  · rwa [hk, Function.update_self]
  · rw [AList.lookup_insert_ne hk] at h
    rw [Function.update_of_ne hk]
    exact hold v h

/-- Posting an offer keeps the invariant: it is dated with the step. -/
theorem Inv.postOffer (hinv : w.Inv) (now : ℤ) (code sdp : List UInt8) :
    (w.step (.postOffer now code sdp)).Inv := by
  simp only [step, AppState.postOffer, AppState.checkCode_bind]
  split
  case h_2 => exact hinv.of_same_records (Nat.le_succ _) rfl rfl rfl rfl rfl rfl rfl
  case h_1 c st hok =>
    split at hok
    · obtain ⟨-, rfl⟩ := Prod.mk.inj (Except.ok.inj hok)
      refine ⟨fun c => (hinv.created c).trans (Nat.lt_succ_self _), fun c v hv => ?_,
        hinv.answer, hinv.candidate⟩
      exact dated_of_lookup_insert (hinv.created c) (hinv.offer c) hv
    · simp at hok

/-- Posting an answer keeps the invariant: it is dated with the step. -/
theorem Inv.postAnswer (hinv : w.Inv) (now : ℤ) (code : List UInt8) (sdp : Option (List UInt8)) :
    (w.step (.postAnswer now code sdp)).Inv := by
  simp only [step, AppState.postAnswer, AppState.checkCode_bind]
  split
  case h_2 => exact hinv.of_same_records (Nat.le_succ _) rfl rfl rfl rfl rfl rfl rfl
  case h_1 c st hok =>
    split at hok
    · cases sdp with
      | none =>
        obtain ⟨-, rfl⟩ := Prod.mk.inj (Except.ok.inj hok)
        exact hinv.of_same_records (Nat.le_succ _) rfl rfl rfl rfl rfl rfl rfl
      | some sdp =>
        obtain ⟨-, rfl⟩ := Prod.mk.inj (Except.ok.inj hok)
        refine ⟨fun c => (hinv.created c).trans (Nat.lt_succ_self _), hinv.offer,
          fun c v hv => ?_, hinv.candidate⟩
        exact dated_of_lookup_insert (hinv.created c) (hinv.answer c) hv
    · simp at hok

/-- Posting a candidate keeps the invariant: it is dated with the step. -/
theorem Inv.postCandidate (hinv : w.Inv) (now : ℤ) (code candidate : List UInt8) :
    (w.step (.postCandidate now code candidate)).Inv := by
  simp only [step, AppState.postCandidate, AppState.checkCode_bind]
  split
  case h_2 => exact hinv.of_same_records (Nat.le_succ _) rfl rfl rfl rfl rfl rfl rfl
  case h_1 c st hok =>
    split at hok
    · obtain ⟨-, rfl⟩ := Prod.mk.inj (Except.ok.inj hok)
      refine ⟨fun c => (hinv.created c).trans (Nat.lt_succ_self _), hinv.offer, hinv.answer,
        fun c k v hk hv => ?_⟩
      exact dated_of_lookup_insert (hinv.created c) (fun v => hinv.candidate c k v hk) hv
    · simp at hok

/-- Every event that hands out no code in use keeps the invariant. -/
theorem Inv.step (w : World) (e : Event) (hinv : w.Inv) (hunused : w.CodeUnused e) :
    (w.step e).Inv := by
  cases e with
  | postSession now => exact hinv.postSession hunused
  | getJoin now code =>
    -- A lookup of a code writes no record that belongs to a session.
    by_cases hlive : w.st.live now code
    · simp only [World.step, AppState.getJoin_of_live hlive]
      exact hinv.of_same_records (Nat.le_succ _) rfl rfl rfl rfl rfl rfl rfl
    · simp only [World.step]
      rcases (AppState.getJoin_of_not_live hlive).2 with h | h <;> rw [h] <;>
        exact hinv.of_same_records (Nat.le_succ _) rfl rfl rfl rfl rfl rfl rfl
  | postOffer now code sdp => exact hinv.postOffer now code sdp
  | postAnswer now code sdp => exact hinv.postAnswer now code sdp
  | postCandidate now code candidate => exact hinv.postCandidate now code candidate
  | postConnected now code =>
    simp only [World.step, AppState.postConnected, AppState.checkCode_bind]
    split
    case h_2 => exact hinv.of_same_records (Nat.le_succ _) rfl rfl rfl rfl rfl rfl rfl
    case h_1 c st hok =>
      split at hok
      · obtain ⟨-, rfl⟩ := Prod.mk.inj (Except.ok.inj hok)
        exact hinv.of_same_records (Nat.le_succ _) rfl rfl rfl rfl rfl rfl rfl
      · simp at hok
  | getAnswer | postRoom | postRoomCandidate | restart =>
    exact hinv.of_same_records (Nat.le_succ _) rfl rfl rfl rfl rfl rfl rfl

/-- With the invariant, an event that hands out no code in use is isolated. -/
theorem Inv.isolated (w : World) (e : Event) (hinv : w.Inv) (hunused : w.CodeUnused e) :
    w.Isolated e := by
  -- Only these three requests answer with records.
  cases e with
  | postSession now =>
    have hnone : w.st.sessionCodes.lookup (formatCode w.st.codeSeq) = none := hunused.1
    simp only [Isolated, AppState.postSession, AppState.genCode, AppState.live, hnone]
  | getJoin now code =>
    intro info hok
    by_cases hlive : w.st.live now code
    · rw [AppState.getJoin_of_live hlive] at hok
      obtain rfl := Except.ok.inj hok
      refine ⟨fun hoffer => ?_, fun x hx => ?_⟩
      · -- What the answer shows was stored under the code, so the invariant says who posted it.
        obtain ⟨v, hv⟩ := Option.ne_none_iff_exists'.mp hoffer
        exact hinv.offer code v hv
      · obtain ⟨hpre, hv⟩ := (mem_scanPrefix (k := x.1) (v := x.2)).mp hx
        exact hinv.candidate code x.1 x.2 hpre hv
    · rw [(AppState.getJoin_of_not_live hlive).1] at hok
      simp at hok
  | getAnswer now code =>
    intro answer hok
    rw [AppState.getAnswer, AppState.checkCode_bind] at hok
    split at hok
    · exact hinv.answer code answer (Except.ok.inj hok)
    · simp at hok
  | _ => trivial

/-- Before the first request the invariant holds. -/
theorem Inv.start : start.Inv :=
  ⟨fun _ => Nat.one_pos, fun _ _ h => by simp [World.start, AppState.empty] at h,
    fun _ _ h => by simp [World.start, AppState.empty] at h,
    fun _ _ _ _ h => by simp [World.start, AppState.empty] at h⟩

/-- In every run from an empty store in which the store holds no record under a code when it is
handed out, every event is isolated. -/
theorem isolated_of_codes_unused (es : List Event)
    (hunused : Guarded World.step CodeUnused World.start es) :
    Guarded World.step Isolated World.start es :=
  guarded_of_invariant Inv.step Inv.isolated hunused Inv.start

/-- A new session is live when it is created. -/
theorem live_postSession (w : World) {now : ℤ} (h : -2 ^ 63 ≤ now) (h' : now + 300 < 2 ^ 63) :
    (w.step (.postSession now)).st.live now (formatCode w.st.codeSeq) = true := by
  have hexp : decodeExpiresAt (encodeEntry now (now + sessionTtl) []) = some (now + 300) := by
    have htake : (encodeEntry now (now + sessionTtl) []).take 8 = leBytesI64 (now + 300) := by
      rw [encodeEntry, List.append_assoc]
      exact List.take_left' (by simp [leBytesI64])
    rw [decodeExpiresAt, if_pos (by simp [encodeEntry, leBytesI64]), htake,
      ofLEI64_leBytesI64 (by omega) h']
  simp only [step, AppState.postSession, AppState.genCode, AppState.live, AList.lookup_insert,
    hexp]
  simp

/-- The condition is needed: an offer left under the code that is handed out is returned to the new
session. -/
theorem not_isolated_of_leftover_offer (w : World) {now : ℤ} (h : -2 ^ 63 ≤ now)
    (h' : now + 300 < 2 ^ 63) {v : List UInt8}
    (hleft : w.st.offers.lookup (formatCode w.st.codeSeq) = some v)
    (hposted : w.offerAt (formatCode w.st.codeSeq) < w.clock) :
    ¬ (w.step (.postSession now)).Isolated (.getJoin now (formatCode w.st.codeSeq)) := by
  intro hiso
  have hjoin := AppState.getJoin_of_live (live_postSession w h h')
  obtain ⟨hoffer, -⟩ := hiso _ (congrArg Prod.fst hjoin)
  have hsome : (w.step (.postSession now)).st.pendingOffer (formatCode w.st.codeSeq) ≠ none := by
    have : (w.step (.postSession now)).st.pendingOffer (formatCode w.st.codeSeq) = some v := hleft
    rw [this]
    simp
  have hcreated : (w.step (.postSession now)).createdAt (formatCode w.st.codeSeq) = w.clock :=
    Function.update_self _ _ _
  have hlt := hoffer hsome
  rw [hcreated] at hlt
  exact absurd (hlt.trans hposted) (lt_irrefl _)

/-- The code `100000000`, the first one of every process. -/
def firstCode : List UInt8 := formatCode codeSeqStart

/-- Two sessions of one process, the first one with an offer, an answer and a candidate. -/
theorem isolated_two_sessions :
    let es := [.postSession 0, .postOffer 1 firstCode [1], .postCandidate 1 firstCode [2],
      .postAnswer 2 firstCode (some [3]), .getJoin 2 firstCode, .postConnected 3 firstCode,
      .postSession 4]
    Guarded World.step CodeUnused World.start es ∧
      Guarded World.step Isolated World.start es := by
  have h : Guarded World.step CodeUnused World.start
      [.postSession 0, .postOffer 1 firstCode [1], .postCandidate 1 firstCode [2],
        .postAnswer 2 firstCode (some [3]), .getJoin 2 firstCode, .postConnected 3 firstCode,
        .postSession 4] := by decide +kernel
  exact ⟨h, isolated_of_codes_unused _ h⟩

/-- A restarted process hands out the code of a session that is still live, and, when that session
has expired, returns its offer to the next one. -/
theorem restart_reuses_codes :
    ¬ Guarded World.step Isolated World.start [.postSession 0, .restart, .postSession 1] ∧
      ¬ Guarded World.step Isolated World.start
        [.postSession 0, .postOffer 1 firstCode [1], .restart, .postSession 1000,
          .getJoin 1001 firstCode] := by
  constructor
  · intro h
    have hlive : (run World.step World.start [.postSession 0, .restart]).st.live 1 firstCode =
        false := h.2.2.1
    exact absurd hlive (by decide +kernel)
  · intro h
    have hjoin := h.2.2.2.2.1 ⟨firstCode, some [1], []⟩ (by decide +kernel)
    exact absurd (hjoin.1 (by simp)) (by decide +kernel)

end World

/-! ## Runs of one process

Without a restart, and below `10^9` codes, the condition of `isolated_of_codes_unused` holds by
itself: every record belongs to a code that the counter has passed. -/

/-- An entry found after an insertion is the inserted one or was there before. -/
theorem lookup_of_insert {t : Tree} {k v c u : List UInt8}
    (h : (t.insert k v).lookup c = some u) : c = k ∨ t.lookup c = some u := by
  by_cases hc : c = k
  · exact .inl hc
  · rw [AList.lookup_insert_ne hc] at h
    exact .inr h

/-- An entry found after a removal was there before. -/
theorem lookup_of_erase {t : Tree} {k c u : List UInt8} (h : (t.erase k).lookup c = some u) :
    t.lookup c = some u := by
  by_cases hc : c = k
  · rw [hc, AList.lookup_erase] at h
    simp at h
  · rwa [AList.lookup_erase_ne hc] at h

/-- Fewer than `10^9` consecutive counter values have different codes. -/
theorem formatCode_ne {i j : ℕ} (hlt : i < j) (hle : j < i + 1000000000) :
    formatCode i ≠ formatCode j := by
  intro h
  have := padDigits_inj (by norm_num) (by norm_num)
    (Nat.mod_lt i (by norm_num : 0 < 10 ^ 9)) (Nat.mod_lt j (by norm_num : 0 < 10 ^ 9)) h
  omega

/-- The tag of a code starts only the candidate keys of that code. -/
theorem eq_of_candidateTag {code code' : List UInt8} {n : ℕ} (hlen : code.length = code'.length)
    (h : candidateTag code <+: candidateKey code' n) : code = code' := by
  obtain ⟨t, ht⟩ := h
  unfold candidateKey candidateTag at ht
  rw [List.append_assoc, List.append_assoc] at ht
  exact (List.append_inj ht hlen).1

namespace AppState

/-- The counter has yielded this code. -/
def Drawn (st : AppState) (code : List UInt8) : Prop :=
  ∃ i, codeSeqStart ≤ i ∧ i < st.codeSeq ∧ code = formatCode i

/-- Every record belongs to a code that the counter has yielded. -/
structure Known (st : AppState) : Prop where
  /-- The sessions. -/
  session : ∀ code v, st.sessionCodes.lookup code = some v → st.Drawn code
  /-- The offers. -/
  offer : ∀ code v, st.offers.lookup code = some v → st.Drawn code
  /-- The answers. -/
  answer : ∀ code v, st.answers.lookup code = some v → st.Drawn code
  /-- The candidates. -/
  candidate : ∀ k v, st.iceCandidates.lookup k = some v →
    ∃ code n, st.Drawn code ∧ k = candidateKey code n

variable {st st' : AppState}

/-- A larger counter has yielded more codes. -/
theorem Drawn.mono {code : List UInt8} (h : st.Drawn code) (hseq : st.codeSeq ≤ st'.codeSeq) :
    st'.Drawn code := by
  obtain ⟨i, hi, hlt, rfl⟩ := h
  exact ⟨i, hi, hlt.trans_le hseq, rfl⟩

/-- Records that were there before stay known, and new ones under drawn codes are. -/
theorem Known.of_records (h : st.Known) (hseq : st.codeSeq ≤ st'.codeSeq)
    (hsession : ∀ code v, st'.sessionCodes.lookup code = some v →
      st'.Drawn code ∨ st.sessionCodes.lookup code = some v)
    (hoffer : ∀ code v, st'.offers.lookup code = some v →
      st'.Drawn code ∨ st.offers.lookup code = some v)
    (hanswer : ∀ code v, st'.answers.lookup code = some v →
      st'.Drawn code ∨ st.answers.lookup code = some v)
    (hcand : ∀ k v, st'.iceCandidates.lookup k = some v →
      (∃ code n, st'.Drawn code ∧ k = candidateKey code n) ∨
        st.iceCandidates.lookup k = some v) : st'.Known where
  session code v hv := (hsession code v hv).elim id fun hv => (h.session code v hv).mono hseq
  offer code v hv := (hoffer code v hv).elim id fun hv => (h.offer code v hv).mono hseq
  answer code v hv := (hanswer code v hv).elim id fun hv => (h.answer code v hv).mono hseq
  candidate k v hv := (hcand k v hv).elim id fun hv => by
    obtain ⟨code, n, hd, hk⟩ := h.candidate k v hv
    exact ⟨code, n, hd.mono hseq, hk⟩

/-- The code of a live session has been drawn. -/
theorem Known.drawn_of_live (h : st.Known) {now : ℤ} {code : List UInt8}
    (hlive : st.live now code) : st.Drawn code := by
  obtain ⟨bytes, hb⟩ := exists_record_of_live hlive
  exact h.session code bytes hb

end AppState

/-- An event that takes a code from the counter. -/
def Event.draws : Event → Bool
  | .postSession _ | .postRoom => true
  | _ => false

namespace World

variable {w : World}

/-- All records are known and the counter stands at `codeSeq`. -/
def KnownAt (w : World) (codeSeq : ℕ) : Prop := w.st.Known ∧ w.st.codeSeq = codeSeq

/-- A join request removes at most the record of a session. -/
theorem knownAt_getJoin (h : w.st.Known) (now : ℤ) (code : List UInt8) :
    (w.step (.getJoin now code)).KnownAt w.st.codeSeq := by
  unfold KnownAt
  by_cases hlive : w.st.live now code
  · have hst : (w.st.getJoin now code).2 = w.st := by rw [AppState.getJoin_of_live hlive]
    simp only [step]
    rw [hst]
    exact ⟨h, rfl⟩
  · simp only [step]
    rcases (AppState.getJoin_of_not_live hlive).2 with hst | hst <;> rw [hst]
    · exact ⟨h, rfl⟩
    · exact ⟨h.of_records le_rfl (fun _ _ hv => .inr (lookup_of_erase hv)) (fun _ _ => .inr)
        (fun _ _ => .inr) (fun _ _ => .inr), rfl⟩

/-- An offer is stored under the code of a live session. -/
theorem knownAt_postOffer (h : w.st.Known) (now : ℤ) (code sdp : List UInt8) :
    (w.step (.postOffer now code sdp)).KnownAt w.st.codeSeq := by
  unfold KnownAt
  simp only [step, AppState.postOffer, AppState.checkCode_bind]
  by_cases hlive : w.st.live now code
  · rw [if_pos hlive]
    refine ⟨h.of_records le_rfl (fun _ _ => .inr) (fun c v hv => ?_) (fun _ _ => .inr)
      (fun _ _ => .inr), rfl⟩
    refine (lookup_of_insert hv).imp_left ?_
    rintro rfl
    exact h.drawn_of_live hlive
  · rw [if_neg hlive]
    exact ⟨h, rfl⟩

/-- An answer is stored under the code of a live session. -/
theorem knownAt_postAnswer (h : w.st.Known) (now : ℤ) (code : List UInt8)
    (sdp : Option (List UInt8)) : (w.step (.postAnswer now code sdp)).KnownAt w.st.codeSeq := by
  unfold KnownAt
  simp only [step, AppState.postAnswer, AppState.checkCode_bind]
  by_cases hlive : w.st.live now code
  · rw [if_pos hlive]
    cases sdp with
    | none => exact ⟨h, rfl⟩
    | some sdp =>
      refine ⟨h.of_records le_rfl (fun _ _ => .inr) (fun _ _ => .inr) (fun c v hv => ?_)
        (fun _ _ => .inr), rfl⟩
      refine (lookup_of_insert hv).imp_left ?_
      rintro rfl
      exact h.drawn_of_live hlive
  · rw [if_neg hlive]
    exact ⟨h, rfl⟩

/-- A candidate is stored under a key with the code of a live session. -/
theorem knownAt_postCandidate (h : w.st.Known) (now : ℤ) (code candidate : List UInt8) :
    (w.step (.postCandidate now code candidate)).KnownAt w.st.codeSeq := by
  unfold KnownAt
  simp only [step, AppState.postCandidate, AppState.checkCode_bind]
  by_cases hlive : w.st.live now code
  · rw [if_pos hlive]
    refine ⟨h.of_records le_rfl (fun _ _ => .inr) (fun _ _ => .inr) (fun _ _ => .inr)
      (fun k v hv => ?_), rfl⟩
    exact (lookup_of_insert hv).imp_left fun hk =>
      ⟨code, w.st.candSeq, h.drawn_of_live hlive, hk⟩
  · rw [if_neg hlive]
    exact ⟨h, rfl⟩

/-- A connected session is removed. -/
theorem knownAt_postConnected (h : w.st.Known) (now : ℤ) (code : List UInt8) :
    (w.step (.postConnected now code)).KnownAt w.st.codeSeq := by
  unfold KnownAt
  simp only [step, AppState.postConnected, AppState.checkCode_bind]
  by_cases hlive : w.st.live now code
  · rw [if_pos hlive]
    exact ⟨h.of_records le_rfl (fun _ _ hv => .inr (lookup_of_erase hv)) (fun _ _ => .inr)
      (fun _ _ => .inr) (fun _ _ => .inr), rfl⟩
  · rw [if_neg hlive]
    exact ⟨h, rfl⟩

/-- A new session is recorded under the code that the counter has just yielded. -/
theorem knownAt_postSession (h : w.st.Known) (hstart : codeSeqStart ≤ w.st.codeSeq)
    (hmax : w.st.codeSeq + 1 < 2 ^ 64) (now : ℤ) :
    (w.step (.postSession now)).KnownAt (w.st.codeSeq + 1) := by
  have hmod : (w.st.codeSeq + 1) % 2 ^ 64 = w.st.codeSeq + 1 := Nat.mod_eq_of_lt hmax
  refine ⟨h.of_records ?_ (fun code v hv => ?_) (fun _ _ => .inr) (fun _ _ => .inr)
    (fun _ _ => .inr), hmod⟩
  · exact (Nat.le_succ _).trans_eq hmod.symm
  · refine (lookup_of_insert hv).imp_left ?_
    rintro rfl
    exact ⟨w.st.codeSeq, hstart, (Nat.lt_succ_self _).trans_eq hmod.symm, rfl⟩

/-- Without a restart and before the counter wraps, an event keeps all records known and advances
the counter when it draws a code. -/
theorem knownAt_step (h : w.st.Known) (hstart : codeSeqStart ≤ w.st.codeSeq)
    (hmax : w.st.codeSeq + 1 < 2 ^ 64) (e : Event) (hne : e ≠ .restart) :
    (w.step e).KnownAt (w.st.codeSeq + (if e.draws then 1 else 0)) := by
  -- One lemma for each request; the others touch no session record.
  cases e with
  | postSession now => exact knownAt_postSession h hstart hmax now
  | getJoin now code => exact knownAt_getJoin h now code
  | postOffer now code sdp => exact knownAt_postOffer h now code sdp
  | postAnswer now code sdp => exact knownAt_postAnswer h now code sdp
  | postCandidate now code candidate => exact knownAt_postCandidate h now code candidate
  | postConnected now code => exact knownAt_postConnected h now code
  | postRoom =>
    have hmod : (w.st.codeSeq + 1) % 2 ^ 64 = w.st.codeSeq + 1 := Nat.mod_eq_of_lt hmax
    refine ⟨h.of_records ?_ (fun _ _ => .inr) (fun _ _ => .inr) (fun _ _ => .inr)
      (fun _ _ => .inr), hmod⟩
    exact (Nat.le_succ _).trans_eq hmod.symm
  | getAnswer now code => exact ⟨h, rfl⟩
  | postRoomCandidate =>
    exact ⟨h.of_records le_rfl (fun _ _ => .inr) (fun _ _ => .inr) (fun _ _ => .inr)
      (fun _ _ => .inr), rfl⟩
  | restart => exact absurd rfl hne

/-- When all records are known and the codes have not wrapped, the next code is unused. -/
theorem codeUnused_of_known (h : w.st.Known) (e : Event)
    (hmax : w.st.codeSeq + (if e.draws then 1 else 0) ≤ codeSeqStart + 1000000000) :
    w.CodeUnused e := by
  cases e with
  | postSession now =>
    have hlt : w.st.codeSeq < codeSeqStart + 1000000000 := hmax
    -- Below the wrap of the digits the next code differs from all drawn before.
    have hnot : ¬ w.st.Drawn (formatCode w.st.codeSeq) := by
      rintro ⟨i, hi, hi', heq⟩
      exact formatCode_ne hi' (by omega) heq.symm
    refine ⟨?_, ?_, ?_, ?_⟩
    · exact Option.eq_none_iff_forall_ne_some.mpr fun v hv => hnot (h.session _ v hv)
    · exact Option.eq_none_iff_forall_ne_some.mpr fun v hv => hnot (h.offer _ v hv)
    · exact Option.eq_none_iff_forall_ne_some.mpr fun v hv => hnot (h.answer _ v hv)
    · refine List.eq_nil_iff_forall_not_mem.mpr fun x hx => hnot ?_
      obtain ⟨hpre, hv⟩ := (mem_scanPrefix (k := x.1) (v := x.2)).mp hx
      obtain ⟨code, n, hdrawn, hk⟩ := h.candidate _ _ hv
      rw [hk] at hpre
      have hlen : (formatCode w.st.codeSeq).length = code.length := by
        obtain ⟨i, -, -, rfl⟩ := hdrawn
        simp [formatCode]
      exact eq_of_candidateTag hlen hpre ▸ hdrawn
  | _ => trivial

/-- A process that is never restarted and draws at most `10^9` codes hands out unused ones. -/
theorem codes_unused_of_one_process (es : List Event) (hrestart : .restart ∉ es)
    (hcount : es.countP Event.draws ≤ 1000000000) :
    Guarded World.step CodeUnused World.start es := by
  -- from any state that such a process reaches, with the codes still to draw
  have hrun : ∀ (w : World), w.st.Known → codeSeqStart ≤ w.st.codeSeq →
      w.st.codeSeq + es.countP Event.draws ≤ codeSeqStart + 1000000000 →
      Guarded World.step CodeUnused w es := by
    clear hcount
    induction es with
    | nil => exact fun _ _ _ _ => trivial
    | cons e es ih =>
      intro w hknown hstart hle
      rw [List.countP_cons] at hle
      have hmax : w.st.codeSeq + 1 < 2 ^ 64 := by
        unfold codeSeqStart at hle
        omega
      obtain ⟨hknown', hseq⟩ := knownAt_step hknown hstart hmax e fun h => hrestart (by simp [h])
      refine ⟨codeUnused_of_known hknown e (by omega), ?_⟩
      exact ih (fun h => hrestart (List.mem_cons_of_mem _ h)) _ hknown' (by omega) (by omega)
  refine hrun World.start ?_ le_rfl (by simpa [World.start, AppState.empty] using hcount)
  constructor <;> intro _ _ hv <;> simp [World.start, AppState.empty] at hv

end World

end LowBand.Signaling
