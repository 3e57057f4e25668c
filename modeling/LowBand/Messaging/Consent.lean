import Mathlib.Data.List.Induction
import Mathlib.Logic.Function.Basic
import LowBand.Lib.Run
import LowBand.Messaging.Clipboard

/-!
# Grants over whole runs

Any number of view, control, file and clipboard sessions, with the flags of the revocation handles
that their grants share or do not share. A run installs grants, takes them away and withdraws
consent through handles, in any order. `heldAfter` reads off a run which grant a session holds: the
one of its last `set_grant`. `LiveAfter` says when that grant is live: no withdrawal through its
handle is in the run, and its time is not over.

Every operation is the check of the token that the session holds, followed by the checks of its
content, which the clipboard has (`apply_eq`). What a session holds and which flags are set follow
from the run by induction (`token_run`, `withdrawn_run`). So an operation within the limits of its
content succeeds exactly while the grant is live, and no operation succeeds otherwise; `is_granted`
gives the same answer; and a withdrawal changes what happens to the sessions that hold a grant of
its handle and to no others, for good: `grants_enforced`.
-/

namespace LowBand.Messaging

open Lib

/-! ## Sessions and their operations -/

/-- One of the sessions. -/
inductive SessionId where
  /-- A view session. -/
  | view (i : ℕ)
  /-- A control session. -/
  | control (i : ℕ)
  /-- A file session. -/
  | file (i : ℕ)
  /-- A clipboard session. -/
  | clipboard (i : ℕ)
deriving DecidableEq

/-- An operation that a session checks its grant for. -/
inductive ApplyOp where
  /-- `ViewSession::apply_frame`. -/
  | frame (i : ℕ)
  /-- `ControlSession::apply_event`. -/
  | event (i : ℕ)
  /-- `FileSession::apply_chunk`. -/
  | chunk (i : ℕ) (bytes : List UInt8)
  /-- `ClipboardSession::apply_remote`. -/
  | text (i : ℕ) (text : String)
  /-- `ClipboardSession::apply_remote_files`. -/
  | files (i : ℕ) (offer : ClipboardFileOffer)

/-- Why an operation was refused. -/
abbrev Refusal := CapabilityError ⊕ ClipboardError

namespace ApplyOp

/-- The session of an operation. -/
def session : ApplyOp → SessionId
  | frame i => .view i
  | event i => .control i
  | chunk i _ => .file i
  | text i _ => .clipboard i
  | files i _ => .clipboard i

/-- How the operation reports that the grant is not live. -/
def refusal : ApplyOp → CapabilityError → Refusal
  | frame _, e | event _, e | chunk _ _, e => .inl e
  | text _ _, e | files _ _, e => .inr (.ofCapability e)

/-- What is checked after the grant. -/
def contentCheck : ApplyOp → Except Refusal Unit
  | frame _ | event _ | chunk _ _ => .ok ()
  | text _ content => (checkText content).mapError .inr
  | files _ offer => (checkOffer offer).mapError .inr

/-- The content is within the limits, where there are any. -/
def WithinLimits : ApplyOp → Prop
  | frame _ | event _ | chunk _ _ => True
  | text _ content => TextWithinLimits content
  | files _ offer => OfferWithinLimits offer

/-- Content within the limits passes. -/
theorem contentCheck_of_withinLimits {op : ApplyOp} (h : op.WithinLimits) :
    op.contentCheck = .ok () := by
  cases op with
  | frame i => rfl
  | event i => rfl
  | chunk i bytes => rfl
  | text i text =>
    rw [contentCheck, checkText_eq_ok.mpr h]
    rfl
  | files i offer =>
    rw [contentCheck, checkOffer_of_withinLimits h]
    rfl

end ApplyOp

/-- All sessions and the flags of all handles. -/
structure Sessions where
  /-- The view sessions. -/
  view : ℕ → ViewSession
  /-- The control sessions. -/
  control : ℕ → ControlSession
  /-- The file sessions. -/
  file : ℕ → FileSession
  /-- The clipboard sessions. -/
  clipboard : ℕ → ClipboardSession
  /-- The flags. -/
  withdrawn : Withdrawn

/-- What happens to them. -/
inductive ConsentEvent where
  /-- `ViewSession::set_grant`. -/
  | setView (i : ℕ) (grant : Option ViewGrant)
  /-- `ControlSession::set_grant`. -/
  | setControl (i : ℕ) (grant : Option ControlGrant)
  /-- `FileSession::set_grant`. -/
  | setFile (i : ℕ) (grant : Option FileGrant)
  /-- `ClipboardSession::set_grant`. -/
  | setClipboard (i : ℕ) (grant : Option ClipboardGrant)
  /-- `ConsentRevocationHandle::withdraw`. -/
  | withdraw (handle : ConsentRevocationHandle)
deriving DecidableEq

namespace Sessions

/-- New sessions, with no consent withdrawn. -/
def new : Sessions := ⟨fun _ => .new, fun _ => .new, fun _ => .new, fun _ => .new, fun _ => false⟩

/-- One event. -/
def step (c : Sessions) : ConsentEvent → Sessions
  | .setView i grant => { c with view := Function.update c.view i ((c.view i).setGrant grant) }
  | .setControl i grant =>
    { c with control := Function.update c.control i ((c.control i).setGrant grant) }
  | .setFile i grant => { c with file := Function.update c.file i ((c.file i).setGrant grant) }
  | .setClipboard i grant =>
    { c with clipboard := Function.update c.clipboard i ((c.clipboard i).setGrant grant) }
  | .withdraw handle => { c with withdrawn := Function.update c.withdrawn handle true }

/-- The token of the grant that a session holds. -/
def token (c : Sessions) : SessionId → Option Token
  | .view i => (c.view i).grant.map ViewGrant.token
  | .control i => (c.control i).grant.map ControlGrant.token
  | .file i => (c.file i).grant.map FileGrant.token
  | .clipboard i => (c.clipboard i).grant.map ClipboardGrant.token

/-- An operation, with the clock at `now`. -/
def apply (c : Sessions) (op : ApplyOp) (now : ℕ) : Except Refusal Unit :=
  match op with
  | .frame i => ((c.view i).applyFrame c.withdrawn now).mapError .inl
  | .event i => ((c.control i).applyEvent c.withdrawn now).mapError .inl
  | .chunk i bytes => ((c.file i).applyChunk c.withdrawn bytes).mapError .inl
  | .text i text => ((c.clipboard i).applyRemote c.withdrawn text).mapError .inr
  | .files i offer => ((c.clipboard i).applyRemoteFiles c.withdrawn offer).mapError .inr

/-- `is_granted` of a session, with the clock at `now`. -/
def isGranted (c : Sessions) (s : SessionId) (now : ℕ) : Bool :=
  match s with
  | .view i => (c.view i).isGranted c.withdrawn now
  | .control i => (c.control i).isGranted c.withdrawn now
  | .file i => (c.file i).isGranted c.withdrawn
  | .clipboard i => (c.clipboard i).isGranted c.withdrawn

/-- Every operation checks the token that its session holds, and then its content. -/
theorem apply_eq (c : Sessions) (op : ApplyOp) (now : ℕ) :
    c.apply op now =
      ((Token.check (c.token op.session) c.withdrawn now).mapError op.refusal >>=
        fun _ => op.contentCheck) := by
  cases op with
  | frame i =>
    rw [apply, ViewSession.applyFrame_eq]
    exact (bind_pure (m := Except Refusal) _).symm
  | event i =>
    rw [apply, ControlSession.applyEvent_eq]
    exact (bind_pure (m := Except Refusal) _).symm
  | chunk i bytes =>
    rw [apply, FileSession.applyChunk_eq _ _ _ now]
    exact (bind_pure (m := Except Refusal) _).symm
  -- The clipboard session checks its grant first, then the content.
  | text i content =>
    rw [apply, ClipboardSession.applyRemote, ClipboardSession.checkGrant_eq _ _ now, mapError_bind,
      mapError_mapError]
    rfl
  | files i offer =>
    rw [apply, ClipboardSession.applyRemoteFiles, ClipboardSession.checkGrant_eq _ _ now,
      mapError_bind, mapError_mapError]
    rfl

/-- `is_granted` says whether the token that the session holds passes. -/
theorem isGranted_eq_true {c : Sessions} {s : SessionId} {now : ℕ} :
    c.isGranted s now = true ↔ Token.check (c.token s) c.withdrawn now = .ok () := by
  cases s with
  | view i =>
    rw [token, ← ViewSession.applyFrame_eq]
    exact ViewSession.isGranted_iff
  | control i =>
    rw [token, ← ControlSession.applyEvent_eq]
    exact ControlSession.isGranted_iff
  | file i =>
    rw [token, ← FileSession.applyChunk_eq _ _ [] now]
    exact FileSession.isGranted_iff []
  | clipboard i =>
    rw [token, ← mapError_eq_ok, ← ClipboardSession.checkGrant_eq _ _ now]
    exact ClipboardSession.isGranted_iff

end Sessions

/-! ## What a run leaves -/

/-- What an event puts in the place of the grant of session `s`, if it is a `set_grant` of it. -/
def ConsentEvent.sets (s : SessionId) : ConsentEvent → Option (Option Token)
  | .setView i grant => if s = .view i then some (grant.map ViewGrant.token) else none
  | .setControl i grant => if s = .control i then some (grant.map ControlGrant.token) else none
  | .setFile i grant => if s = .file i then some (grant.map FileGrant.token) else none
  | .setClipboard i grant =>
    if s = .clipboard i then some (grant.map ClipboardGrant.token) else none
  | .withdraw _ => none

/-- What session `s` holds after a run: what its last `set_grant` installed. -/
def heldAfter (es : List ConsentEvent) (s : SessionId) : Option Token :=
  (es.filterMap (·.sets s)).getLast?.join

/-- After a run, session `s` holds a grant through whose handle no consent was withdrawn in the run,
and whose time is not over at `now`. -/
def LiveAfter (es : List ConsentEvent) (s : SessionId) (now : ℕ) : Prop :=
  ∃ t, heldAfter es s = some t ∧ (∀ h, t.revocation = some h → .withdraw h ∉ es) ∧
    ∀ e, t.expiresAt = some e → now < e

/-- After a run, session `s` holds a grant of handle `h`. -/
def HoldsAfter (es : List ConsentEvent) (s : SessionId) (h : ConsentRevocationHandle) : Prop :=
  ∃ t, heldAfter es s = some t ∧ t.revocation = some h

/-- A withdrawal does not change what sessions hold. -/
theorem heldAfter_withdraw (es fs : List ConsentEvent) (h : ConsentRevocationHandle)
    (s : SessionId) : heldAfter (es ++ .withdraw h :: fs) s = heldAfter (es ++ fs) s := by
  simp [heldAfter, ConsentEvent.sets]

namespace Sessions

/-- An event puts a grant in a session, or leaves what it holds. -/
theorem token_step (c : Sessions) (e : ConsentEvent) (s : SessionId) :
    (c.step e).token s = (e.sets s).getD (c.token s) := by
  -- An event sets the token of its own session only.
  cases e with
  | withdraw h => cases s <;> rfl
  | setView i grant =>
    cases s with
    | view j =>
      by_cases hj : j = i <;> simp [step, token, ConsentEvent.sets, ViewSession.setGrant, hj]
    | _ => rfl
  | setControl i grant =>
    cases s with
    | control j =>
      by_cases hj : j = i <;> simp [step, token, ConsentEvent.sets, ControlSession.setGrant, hj]
    | _ => rfl
  | setFile i grant =>
    cases s with
    | file j =>
      by_cases hj : j = i <;> simp [step, token, ConsentEvent.sets, FileSession.setGrant, hj]
    | _ => rfl
  | setClipboard i grant =>
    cases s with
    | clipboard j =>
      by_cases hj : j = i <;> simp [step, token, ConsentEvent.sets, ClipboardSession.setGrant, hj]
    | _ => rfl

/-- After a run a session holds what its last `set_grant` installed. -/
theorem token_run (es : List ConsentEvent) (s : SessionId) :
    (run step new es).token s = heldAfter es s := by
  induction es using List.reverseRecOn with
  | nil => cases s <;> rfl
  | append_singleton es e ih =>
    rw [run_append, run_cons, run_nil, token_step, ih]
    unfold heldAfter
    cases he : e.sets s with
    | none => simp [he]
    | some t => simp [he]

/-- A flag is set by a withdrawal through its handle. -/
theorem withdrawn_step {c : Sessions} {e : ConsentEvent} {h : ConsentRevocationHandle} :
    (c.step e).withdrawn h = true ↔ c.withdrawn h = true ∨ e = .withdraw h := by
  cases e with
  | withdraw h' =>
    by_cases hh : h = h'
    · simp [step, hh]
    · simp [step, hh, Ne.symm hh]
  | setView i grant => simp [step]
  | setControl i grant => simp [step]
  | setFile i grant => simp [step]
  | setClipboard i grant => simp [step]

/-- After a run the flags are set of the handles through which consent was withdrawn. -/
theorem withdrawn_run {es : List ConsentEvent} {h : ConsentRevocationHandle} :
    (run step new es).withdrawn h = true ↔ .withdraw h ∈ es := by
  induction es using List.reverseRecOn with
  | nil => simp [new]
  | append_singleton es e ih =>
    rw [run_append, run_cons, run_nil, withdrawn_step, ih, List.mem_append, List.mem_singleton,
      eq_comm]

/-- After a run the check of a session's grant passes exactly when the grant is live. -/
theorem check_run {es : List ConsentEvent} {s : SessionId} {now : ℕ} :
    Token.check ((run step new es).token s) (run step new es).withdrawn now = .ok () ↔
      LiveAfter es s now := by
  rw [Token.check_eq_ok, token_run]
  simp only [LiveAfter, ← Bool.not_eq_true, withdrawn_run]

/-- With a withdrawal in the run, a session that holds a grant of the handle refuses everything. -/
theorem apply_of_holdsAfter {es fs : List ConsentEvent} {h : ConsentRevocationHandle} {op : ApplyOp}
    (hold : HoldsAfter (es ++ fs) op.session h) (now : ℕ) :
    (run step new (es ++ .withdraw h :: fs)).apply op now =
      .error (op.refusal .consentWithdrawn) := by
  obtain ⟨t, ht, hrev⟩ := hold
  rw [apply_eq, token_run, heldAfter_withdraw, ht,
    Token.check_of_withdrawn hrev (withdrawn_run.mpr (by simp))]
  rfl

/-- With a withdrawal in the run or without it, a session that holds no grant of the handle does the
same. -/
theorem apply_of_not_holdsAfter {es fs : List ConsentEvent} {h : ConsentRevocationHandle}
    {op : ApplyOp} (hold : ¬ HoldsAfter (es ++ fs) op.session h) (now : ℕ) :
    (run step new (es ++ .withdraw h :: fs)).apply op now =
      (run step new (es ++ fs)).apply op now := by
  rw [apply_eq, apply_eq, token_run, token_run, heldAfter_withdraw]
  congr 2
  apply Token.check_congr
  intro t ht r hr
  have hne : r ≠ h := by
    rintro rfl
    exact hold ⟨t, ht, hr⟩
  rw [Bool.eq_iff_iff, withdrawn_run, withdrawn_run]
  simp [hne]

end Sessions

/-- For every run of `set_grant`s and withdrawals on any number of sessions of the four kinds, at
every time: an operation with content within the limits succeeds if and only if the grant of its
session is live, an operation with other content succeeds only then, and `is_granted` says whether
it is live. A withdrawal makes every operation of the sessions that hold a grant of its handle fail,
whatever happens after it, and changes nothing for the others. -/
theorem grants_enforced (es : List ConsentEvent) :
    let after := run Sessions.step .new
    (∀ op now, op.WithinLimits → ((after es).apply op now = .ok () ↔ LiveAfter es op.session now)) ∧
      (∀ op now, (after es).apply op now = .ok () → LiveAfter es op.session now) ∧
      (∀ s now, (after es).isGranted s now = true ↔ LiveAfter es s now) ∧
      ∀ h fs op now,
        (HoldsAfter (es ++ fs) op.session h →
          (after (es ++ .withdraw h :: fs)).apply op now =
            .error (op.refusal .consentWithdrawn)) ∧
        (¬ HoldsAfter (es ++ fs) op.session h →
          (after (es ++ .withdraw h :: fs)).apply op now = (after (es ++ fs)).apply op now) := by
  -- The grant is checked before the content.
  have hlive : ∀ op now, (run Sessions.step .new es).apply op now = .ok () →
      LiveAfter es op.session now := by
    intro op now h
    rw [Sessions.apply_eq, bind_eq_ok] at h
    obtain ⟨_, hgate, -⟩ := h
    exact Sessions.check_run.mp (mapError_eq_ok.mp hgate)
  refine ⟨?_, hlive, ?_, ?_⟩
  · intro op now hcontent
    refine ⟨hlive op now, ?_⟩
    intro h
    rw [Sessions.apply_eq, Sessions.check_run.mpr h]
    exact ApplyOp.contentCheck_of_withinLimits hcontent
  · intro s now
    rw [Sessions.isGranted_eq_true, Sessions.check_run]
  · intro h fs op now
    exact ⟨fun hold => Sessions.apply_of_holdsAfter hold now,
      fun hold => Sessions.apply_of_not_holdsAfter hold now⟩

/-- A clipboard session whose grant is live refuses a file with the name of the parent directory. -/
theorem live_grant_refused :
    let es : List ConsentEvent := [.setClipboard 0 (some .new)]
    let op : ApplyOp := .files 0 ⟨[⟨"..", 0⟩]⟩
    LiveAfter es op.session 0 ∧ (run Sessions.step .new es).isGranted op.session 0 = true ∧
      (run Sessions.step .new es).apply op 0 = .error (.inr (.unsafeFileName "..")) := by
  refine ⟨⟨⟨none, none⟩, rfl, nofun, nofun⟩, rfl, ?_⟩
  decide

end LowBand.Messaging
