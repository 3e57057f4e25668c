import LowBand.Messaging.PanicKey

/-!
# The states of the panic key

The table in the documentation of `PanicController` has three rows: no session, a live session, and
a live session in which the panic was fired. A `PanicSide` is one side of a session: its controller,
its control session and its receiver of notices, with the operations of `panic_key.rs` taken in any
order.

`Consistent` says that the side is in one of the three rows, and that no control grant is held after
a panic until one is installed. All operations of the controller keep it.
`PanicNoticeReceiver::apply` keeps the second part, but it sets `panic_fired` without a look at
`transport_up`, where `fire_panic` looks first. So a run stays in the table exactly when each notice
that is applied comes while the transport is up: `panic_consistent_iff`.
-/

namespace LowBand.Messaging

open Lib

/-- One side of a session. -/
structure PanicSide where
  /-- The controller. -/
  panic : PanicController
  /-- The control session. -/
  control : ControlSession
  /-- The receiver of the peer's notices. -/
  receiver : PanicNoticeReceiver
  /-- A panic revoked the control grant, and none was installed since. -/
  severed : Bool
deriving DecidableEq

/-- A call of one of the operations. -/
inductive PanicCall where
  /-- `set_transport_up`. -/
  | setTransportUp (up : Bool)
  /-- `ControlSession::set_grant`. -/
  | setGrant (grant : Option ControlGrant)
  /-- `fire_panic`. -/
  | firePanic
  /-- `fire_panic_with_notice`. -/
  | firePanicWithNotice
  /-- `clear_panic`. -/
  | clearPanic
  /-- `PanicNoticeReceiver::apply`. -/
  | apply (notice : PanicNotice)
deriving DecidableEq

namespace PanicSide

/-- A side with a new controller, whatever its control session and its receiver are. -/
def new (control : ControlSession) (receiver : PanicNoticeReceiver) : PanicSide :=
  ⟨.new, control, receiver, false⟩

/-- One call. A panic counts when the operation reports that control was severed. -/
def step (s : PanicSide) : PanicCall → PanicSide
  | .setTransportUp up => { s with panic := s.panic.setTransportUp up }
  | .setGrant grant =>
    { s with control := s.control.setGrant grant, severed := s.severed && grant.isNone }
  | .firePanic =>
    let (effect, panic, control) := s.panic.firePanic s.control
    { s with panic, control, severed := s.severed || effect.injectionRevoked }
  | .firePanicWithNotice =>
    let ((effect, _), panic, control) := s.panic.firePanicWithNotice s.control
    { s with panic, control, severed := s.severed || effect.injectionRevoked }
  | .clearPanic => { s with panic := s.panic.clearPanic }
  | .apply notice =>
    let (applied, receiver, control, panic) := s.receiver.apply notice s.control s.panic
    ⟨panic, control, receiver, s.severed || applied⟩

/-- The side is in a row of the table, and after a panic it holds no control grant until one is
installed. -/
structure Consistent (s : PanicSide) : Prop where
  /-- The row with the transport down and the panic fired is not there. -/
  inTable : s.panic.panicFired = true → s.panic.transportUp = true
  /-- No grant is held after a panic. -/
  severed : s.severed = true → s.control.grant = none

/-- The condition on a call: a notice that is newer than the last one applied comes while the
transport is up. -/
def AppliedWhileUp (s : PanicSide) : PanicCall → Prop
  | .apply notice => s.receiver.lastSeq.any (notice.seq ≤ ·) ∨ s.panic.transportUp = true
  | _ => True

/-- A side with a new controller is consistent. -/
theorem consistent_new (control : ControlSession) (receiver : PanicNoticeReceiver) :
    (new control receiver).Consistent :=
  ⟨fun h => absurd h Bool.false_ne_true, fun h => absurd h Bool.false_ne_true⟩

/-- Firing the panic keeps a side consistent. -/
theorem Consistent.firePanic {s : PanicSide} (h : s.Consistent) :
    (s.step .firePanic).Consistent := by
  cases hup : s.panic.transportUp with
  | false => simpa [step, PanicController.firePanic, hup] using h
  | true =>
    simp only [step, PanicController.firePanic, hup, Bool.not_true, Bool.false_eq_true, if_false]
    exact ⟨fun _ => rfl, fun _ => rfl⟩

/-- With a notice or without one, firing changes the same things but for the next number. -/
theorem step_firePanicWithNotice (s : PanicSide) : ∃ q,
    s.step .firePanicWithNotice =
      { s.step .firePanic with panic := { (s.step .firePanic).panic with nextSeq := q } } := by
  obtain ⟨⟨up, fired, next⟩, control, receiver, severed⟩ := s
  cases up with
  | false => exact ⟨next, rfl⟩
  | true => exact ⟨next + 1, rfl⟩

/-- A notice keeps a side consistent exactly when it is not applied or the transport is up. -/
theorem Consistent.apply_iff {s : PanicSide} (h : s.Consistent) (notice : PanicNotice) :
    (s.step (.apply notice)).Consistent ↔ s.AppliedWhileUp (.apply notice) := by
  by_cases hold : s.receiver.lastSeq.any (notice.seq ≤ ·)
  · have hstep : s.step (.apply notice) = s := by
      simp [step, PanicNoticeReceiver.apply, hold]
    rw [hstep]
    exact iff_of_true h (.inl hold)
  · simp only [step, PanicNoticeReceiver.apply, hold, AppliedWhileUp, Bool.false_eq_true, if_false,
      false_or]
    constructor
    · intro hnext
      exact hnext.inTable rfl
    · intro hup
      exact ⟨fun _ => hup, fun _ => rfl⟩

/-- A call keeps a side consistent exactly when it meets the condition. -/
theorem Consistent.step_iff {s : PanicSide} (h : s.Consistent) (c : PanicCall) :
    (s.step c).Consistent ↔ s.AppliedWhileUp c := by
  cases c with
  | apply notice => exact h.apply_iff notice
  | setTransportUp up =>
    refine iff_of_true ⟨?_, h.severed⟩ trivial
    intro hfired
    exact (Bool.and_eq_true_iff.mp hfired).1
  | setGrant grant =>
    refine iff_of_true ⟨h.inTable, ?_⟩ trivial
    intro hsevered
    exact Option.isNone_iff_eq_none.mp (Bool.and_eq_true_iff.mp hsevered).2
  | firePanic => exact iff_of_true h.firePanic trivial
  | firePanicWithNotice =>
    obtain ⟨q, hq⟩ := s.step_firePanicWithNotice
    rw [hq]
    exact iff_of_true ⟨h.firePanic.inTable, h.firePanic.severed⟩ trivial
  | clearPanic =>
    exact iff_of_true ⟨fun hfired => absurd hfired Bool.false_ne_true, h.severed⟩ trivial

end PanicSide

/-- For every control session, every receiver and every run of calls from a new controller: all
states of the run are consistent if and only if each notice that is applied in it comes while the
transport is up. -/
theorem panic_consistent_iff (control : ControlSession) (receiver : PanicNoticeReceiver)
    (cs : List PanicCall) :
    (∀ pre, pre <+: cs → (run PanicSide.step (.new control receiver) pre).Consistent) ↔
      Guarded PanicSide.step PanicSide.AppliedWhileUp (.new control receiver) cs :=
  forall_isPrefix_iff_guarded (fun _ c h => h.step_iff c)
    (PanicSide.consistent_new control receiver)

/-- The first notice that reaches a new controller fires the panic with the transport down. -/
theorem panic_fired_while_down :
    let s := run PanicSide.step (.new .new .new) [.apply ⟨1⟩]
    ¬ s.Consistent ∧ s.panic.panicFired = true ∧ s.panic.transportUp = false := by
  refine ⟨?_, rfl, rfl⟩
  intro h
  exact absurd (h.inTable rfl) Bool.false_ne_true

end LowBand.Messaging
