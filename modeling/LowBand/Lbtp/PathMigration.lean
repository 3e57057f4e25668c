import LowBand.Lib.Bytes
import LowBand.Lib.Retry

/-!
# Path migration

`PathMigrationController` of `core/lbtp/src/path.rs`: a challenge with a random token is sent to a
new path, three more times when no response comes, and the session migrates when a response echoes
the token.

The controller is a retried request of four sendings, eleven ticks apart (`call_view`). What it does
follows from the calls since the last `start` alone (`migration_timeline`): it sends the challenge
again at the 11th, 22nd and 33rd tick and fails at the 44th, unless a response with the token of
that start came before, and nothing else makes it migrate.
-/

namespace LowBand.Lbtp

open Lib

/-- `ChallengeToken`. -/
abbrev ChallengeToken := Bytes 8

/-- `CHALLENGE_TIMEOUT_TICKS`. -/
def challengeTimeoutTicks : ℕ := 10

/-- `MAX_CHALLENGE_RETRIES`. -/
def maxChallengeRetries : ℕ := 3

/-- `PathChallengeFrame`. -/
structure PathChallengeFrame where
  /-- The token to be echoed. -/
  token : ChallengeToken
deriving DecidableEq

/-- `PathResponseFrame`. -/
structure PathResponseFrame where
  /-- The token of the challenge. -/
  token : ChallengeToken
deriving DecidableEq

/-- `MigrationEvent`. -/
inductive MigrationEvent where
  /-- The challenge is to be sent again. -/
  | retransmit (frame : PathChallengeFrame)
  /-- The session has migrated. -/
  | migrated
  /-- No response came. -/
  | failed
deriving DecidableEq

/-- `MigrationState`. -/
inductive MigrationState where
  /-- Nothing was started. -/
  | idle
  /-- A challenge is out. -/
  | probing (token : ChallengeToken) (retriesLeft ticksRemaining : ℕ)
  /-- The session has migrated. -/
  | migrated
  /-- No response came. -/
  | failed
deriving DecidableEq

/-- `PathMigrationController`. -/
structure PathMigrationController where
  /-- The state. -/
  state : MigrationState
deriving DecidableEq

namespace PathMigrationController

/-- `PathMigrationController::new`. -/
def new : PathMigrationController := ⟨.idle⟩

/-- `PathMigrationController::start`. -/
def start (_ : PathMigrationController) (token : ChallengeToken) :
    PathChallengeFrame × PathMigrationController :=
  (⟨token⟩, ⟨.probing token maxChallengeRetries challengeTimeoutTicks⟩)

/-- `PathMigrationController::tick`. -/
def tick (c : PathMigrationController) : Option MigrationEvent × PathMigrationController :=
  match c.state with
  | .probing token retriesLeft ticksRemaining =>
    if 0 < ticksRemaining then (none, ⟨.probing token retriesLeft (ticksRemaining - 1)⟩)
    else if retriesLeft = 0 then (some .failed, ⟨.failed⟩)
    else (some (.retransmit ⟨token⟩), ⟨.probing token (retriesLeft - 1) challengeTimeoutTicks⟩)
  | _ => (none, c)

/-- `PathMigrationController::on_response`. -/
def onResponse (c : PathMigrationController) (response : PathResponseFrame) :
    Option MigrationEvent × PathMigrationController :=
  match c.state with
  | .probing token _ _ =>
    if response.token = token then (some .migrated, ⟨.migrated⟩) else (none, c)
  | _ => (none, c)

/-- `PathMigrationController::is_migrated`. -/
def isMigrated (c : PathMigrationController) : Bool := c.state == .migrated

/-- `PathMigrationController::is_failed`. -/
def isFailed (c : PathMigrationController) : Bool := c.state == .failed

/-- `PathMigrationController::is_probing`. -/
def isProbing (c : PathMigrationController) : Bool :=
  match c.state with
  | .probing .. => true
  | _ => false

end PathMigrationController

/-! ## The controller as a retried request -/

/-- A call of the controller. -/
abbrev PathCall := Retry.Input ChallengeToken PathResponseFrame

/-- A challenge is sent once and three more times, eleven ticks apart; a response that echoes the
token answers it. -/
def challengeParams : Retry.Params ChallengeToken PathResponseFrame where
  pause := challengeTimeoutTicks
  most := maxChallengeRetries + 1
  most_pos := Nat.succ_pos _
  accepts := fun token response => response.token == token

namespace PathMigrationController

/-- The controller after a call. -/
def call (c : PathMigrationController) : PathCall → PathMigrationController
  | .start token => (c.start token).2
  | .tick => c.tick.2
  | .answer response => (c.onResponse response).2

/-- The state as that of a retried request: the sendings that are not left are done. -/
def view (c : PathMigrationController) : Retry.State ChallengeToken :=
  match c.state with
  | .idle => .idle
  | .probing token retriesLeft ticksRemaining =>
    .waiting token (challengeParams.most - retriesLeft) ticksRemaining
  | .migrated => .answered
  | .failed => .failed

/-- There are never more retries left than there are. -/
def Valid (c : PathMigrationController) : Prop :=
  ∀ token retriesLeft ticksRemaining, c.state = .probing token retriesLeft ticksRemaining →
    retriesLeft ≤ maxChallengeRetries

end PathMigrationController

/-- The event of an output of a retried request that no start made. -/
def migrationEventOf : Retry.Output ChallengeToken → MigrationEvent
  | .send token _ => .retransmit ⟨token⟩
  | .answered => .migrated
  | .failed => .failed

namespace PathMigrationController

/-- A call is a step of the retried request. -/
theorem call_view {c : PathMigrationController} (hc : c.Valid) (e : PathCall) :
    (c.call e).Valid ∧ (c.call e).view = (Retry.step challengeParams c.view e).2 := by
  obtain ⟨state⟩ := c
  cases e with
  | start token =>
    constructor
    · rintro token' retriesLeft ticksRemaining ⟨⟩
      exact le_rfl
    · cases state <;> rfl
  | tick =>
    cases state with
    | idle | migrated | failed => exact ⟨hc, rfl⟩
    | probing token retriesLeft ticksRemaining =>
      have hle : retriesLeft ≤ maxChallengeRetries := hc token retriesLeft ticksRemaining rfl
      have hmost : challengeParams.most = maxChallengeRetries + 1 := rfl
      simp only [call, tick, view, Retry.step]
      -- The three branches of `tick`: wait, give up, send again.
      by_cases hleft : 0 < ticksRemaining
      · simp only [if_pos hleft]
        refine ⟨?_, trivial⟩
        rintro token' retries' ticks' ⟨⟩
        exact hle
      · by_cases hretry : retriesLeft = 0
        · simp only [if_neg hleft, if_pos hretry, if_pos (show challengeParams.most ≤
            challengeParams.most - retriesLeft by omega)]
          exact ⟨fun _ _ _ h => (by cases h), trivial⟩
        · simp only [if_neg hleft, if_neg hretry, if_neg (show ¬ challengeParams.most ≤
            challengeParams.most - retriesLeft by omega)]
          constructor
          · rintro token' retries' ticks' ⟨⟩
            omega
          · rw [show challengeParams.most - (retriesLeft - 1) =
              challengeParams.most - retriesLeft + 1 by omega]
            rfl
  | answer response =>
    cases state with
    | idle | migrated | failed => exact ⟨hc, rfl⟩
    | probing token retriesLeft ticksRemaining =>
      simp only [call, onResponse, view, Retry.step, challengeParams, beq_iff_eq]
      -- The response is that to the challenge, or it is ignored.
      by_cases htoken : response.token = token
      · simp only [if_pos htoken]
        exact ⟨fun _ _ _ h => (by cases h), trivial⟩
      · simp only [if_neg htoken]
        exact ⟨hc, trivial⟩

/-- What `tick` returns is what the retried request puts out. -/
theorem tick_view {c : PathMigrationController} (hc : c.Valid) :
    c.tick.1 = ((Retry.step challengeParams c.view .tick).1.head?).map migrationEventOf := by
  obtain ⟨state⟩ := c
  cases state with
  | idle | migrated | failed => rfl
  | probing token retriesLeft ticksRemaining =>
    have hle : retriesLeft ≤ maxChallengeRetries := hc token retriesLeft ticksRemaining rfl
    have hmost : challengeParams.most = maxChallengeRetries + 1 := rfl
    simp only [tick, view, Retry.step]
    by_cases hleft : 0 < ticksRemaining
    · simp only [if_pos hleft]
      rfl
    · by_cases hretry : retriesLeft = 0
      · simp only [if_neg hleft, if_pos hretry, if_pos (show challengeParams.most ≤
          challengeParams.most - retriesLeft by omega)]
        rfl
      · simp only [if_neg hleft, if_neg hretry, if_neg (show ¬ challengeParams.most ≤
          challengeParams.most - retriesLeft by omega)]
        rfl

/-- What `on_response` returns is what the retried request puts out. -/
theorem onResponse_view (c : PathMigrationController) (response : PathResponseFrame) :
    (c.onResponse response).1 =
      ((Retry.step challengeParams c.view (.answer response)).1.head?).map migrationEventOf := by
  obtain ⟨state⟩ := c
  cases state with
  | idle | migrated | failed => rfl
  | probing token retriesLeft ticksRemaining =>
    simp only [onResponse, view, Retry.step, challengeParams, beq_iff_eq]
    by_cases htoken : response.token = token
    · simp only [if_pos htoken]
      rfl
    · simp only [if_neg htoken]
      rfl

/-- The flags read the state. -/
theorem flags_view (c : PathMigrationController) :
    (c.isMigrated ↔ c.view = .answered) ∧
      (c.isProbing ↔ ∃ token sent left, c.view = .waiting token sent left) ∧
      (c.isFailed ↔ c.view = .failed) := by
  obtain ⟨state⟩ := c
  cases state <;> simp [isMigrated, isProbing, isFailed, view]

/-- A run of calls is a run of the retried request. -/
theorem run_view {c : PathMigrationController} (hc : c.Valid) (es : List PathCall) :
    (run call c es).Valid ∧
      (run call c es).view = (Retry.step challengeParams).finish c.view es := by
  induction es generalizing c with
  | nil => exact ⟨hc, rfl⟩
  | cons e es ih =>
    obtain ⟨hvalid, hview⟩ := call_view hc e
    obtain ⟨hlast, hrest⟩ := ih hvalid
    refine ⟨hlast, hrest.trans ?_⟩
    rw [hview]
    rfl

/-- After a run of calls the controller is what the calls since the last start say. -/
theorem view_run (es : List PathCall) :
    (run call new es).Valid ∧
      (run call new es).view = Retry.stateOf challengeParams (Retry.sinceStart es) := by
  have hnew : new.Valid := fun _ _ _ h => by cases h
  obtain ⟨hvalid, hview⟩ := run_view hnew es
  exact ⟨hvalid, hview.trans (Retry.output_eq es .tick).1⟩

end PathMigrationController

open PathMigrationController Retry

/-- A response echoed the token within the 44 ticks of its challenge. -/
abbrev EchoedInTime (token : ChallengeToken) (since : List PathCall) : Prop :=
  inTime challengeParams token 0 since = true

/-- What the controller does after any run of calls follows from those since the last start. With no
start it does nothing. Otherwise, unless the token was echoed in time, it sends the challenge again
at the 11th, 22nd and 33rd tick and fails at the 44th; only a response that echoes the token of the
last start before this makes it migrate. -/
theorem migration_timeline (es : List PathCall) :
    match sinceStart es with
    | none => (run call new es).state = .idle
    | some (token, since) =>
      let c := run call new es
      let t := ticks since
      (c.tick.1 =
        if EchoedInTime token since then none
        else if t + 1 = 11 ∨ t + 1 = 22 ∨ t + 1 = 33 then some (.retransmit ⟨token⟩)
        else if t + 1 = 44 then some .failed
        else none) ∧
      (∀ response, (c.onResponse response).1 =
        if response.token = token ∧ ¬ EchoedInTime token since ∧ t < 44 then some .migrated
        else none) ∧
      (c.isMigrated ↔ EchoedInTime token since) ∧
      (c.isProbing ↔ ¬ EchoedInTime token since ∧ t < 44) ∧
      (c.isFailed ↔ ¬ EchoedInTime token since ∧ 44 ≤ t) := by
  -- The controller shows the state that the history gives; the rest reads it off.
  obtain ⟨hvalid, hview⟩ := view_run es
  generalize run call new es = c at *
  cases hsince : sinceStart es with
  | none =>
    rw [hsince] at hview
    obtain ⟨state⟩ := c
    cases state with
    | idle => rfl
    | probing | migrated | failed => cases hview
  | some h =>
    obtain ⟨token, since⟩ := h
    dsimp only
    rw [hsince] at hview
    have htick := tick_view hvalid
    have hresponse := onResponse_view c
    simp only [hview, step_stateOf, due] at htick hresponse
    have hperiod : challengeParams.period = 11 := rfl
    have hlife : challengeParams.lifetime = 44 := rfl
    obtain ⟨hmigrated, hprobing, hfailed⟩ := flags_view c
    rw [hmigrated, hprobing, hfailed, htick, hview, hperiod, hlife]
    refine ⟨?_, fun response => ?_, ?_⟩
    -- What a tick does.
    · by_cases hin : EchoedInTime token since
      · rw [if_pos hin, if_pos (Or.inl hin)]
        rfl
      · simp only [hin, false_or, if_false]
        split_ifs <;> first | rfl | omega
    · rw [hresponse, hlife]
      simp only [challengeParams, beq_iff_eq, Bool.not_eq_true]
      split_ifs <;> rfl
    · simp only [stateOf, hlife]
      by_cases hin : EchoedInTime token since
      · rw [if_pos hin]
        exact ⟨iff_of_true rfl hin, iff_of_false (by simp) fun h => h.1 hin,
          iff_of_false (by simp) fun h => h.1 hin⟩
      · by_cases hlt : ticks since < 44
        · simp [hin, hlt]
        · simp [hin, hlt, Nat.le_of_not_lt hlt]

end LowBand.Lbtp
