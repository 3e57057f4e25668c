import LowBand.Lib.Bytes
import LowBand.Lib.Run
import LowBand.Messaging.Grants

/-!
# The panic key and its notices

`panic_key.rs`: the assisted side fires the panic and numbers the notices that it sends, and the
controlling side severs its own control grant on each notice that is newer than the last one it
applied. The sender counts modulo `2^32` and starts at 1 whenever its controller is created; the
receiver compares the numbers as they are.

A `World` has both sides and the notices fired so far, which the network hands to the receiver in
any order, any number of times or never. `Exact` says of one delivery what the receiver should do
with it, in terms of the order in which the notices were fired. While the numbers of the notices
fired increase (`Increasing`), the last number applied belongs to the newest notice delivered
(`Inv`), and every delivery is exact. In the other direction, a notice with a number that is not
larger than an earlier one is missed when it is delivered after that one. So the deliveries of a
sender's run are exact, in every order, if and only if each notice is fired with a number that is
larger than those before it: `notices_exact_iff`. A controller that is kept has such numbers up to
its notice `2^32 - 1` and not beyond (`fresh_fires_iff`); one that is created again starts over.
-/

namespace LowBand.Messaging

open Lib

/-! ## Notices -/

/-- `PanicNotice`. -/
structure PanicNotice where
  /-- The sequence number. -/
  seq : UInt32
deriving DecidableEq

/-- `PANIC_NOTICE_TAG`. -/
def panicNoticeTag : UInt8 := 0x50

/-- `PANIC_NOTICE_LEN`. -/
def panicNoticeLen : ℕ := 5

namespace PanicNotice

/-- `PanicNotice::encode`. -/
def encode (n : PanicNotice) : List UInt8 := panicNoticeTag :: leBytes 4 n.seq.toNat

/-- `PanicNotice::decode`. -/
def decode (buf : List UInt8) : Option PanicNotice :=
  if buf.length ≠ panicNoticeLen ∨ buf.head? ≠ some panicNoticeTag then none
  else (Bytes.tryFrom 4 (buf.drop 1)).map fun b => ⟨UInt32.ofNat (ofLE b.val)⟩

/-- A notice reads back from the wire. -/
@[simp]
theorem decode_encode (n : PanicNotice) : decode n.encode = some n := by
  have hfrom : Bytes.tryFrom 4 (leBytes 4 n.seq.toNat) = some ⟨leBytes 4 n.seq.toNat, by simp⟩ :=
    Bytes.tryFrom_eq_some.mpr rfl
  simp [decode, encode, panicNoticeLen, hfrom]

end PanicNotice

/-! ## The controller and the receiver -/

/-- `PanicEffect`. -/
structure PanicEffect where
  /-- The control grant was revoked. -/
  injectionRevoked : Bool
  /-- The transport is live. -/
  transportUp : Bool
deriving DecidableEq

/-- `PanicController`. -/
structure PanicController where
  /-- The transport is live. -/
  transportUp : Bool
  /-- The panic was fired. -/
  panicFired : Bool
  /-- The number of the next notice. -/
  nextSeq : UInt32
deriving DecidableEq

namespace PanicController

/-- `PanicController::new`. -/
def new : PanicController := ⟨false, false, 1⟩

/-- `set_transport_up`. A disconnect also clears `panic_fired`. -/
def setTransportUp (p : PanicController) (up : Bool) : PanicController :=
  { p with transportUp := up, panicFired := up && p.panicFired }

/-- `fire_panic`. -/
def firePanic (p : PanicController) (control : ControlSession) :
    PanicEffect × PanicController × ControlSession :=
  if !p.transportUp then (⟨false, false⟩, p, control)
  else (⟨true, true⟩, { p with panicFired := true }, control.setGrant none)

/-- `fire_panic_with_notice`. -/
def firePanicWithNotice (p : PanicController) (control : ControlSession) :
    (PanicEffect × Option PanicNotice) × PanicController × ControlSession :=
  let (effect, p, control) := p.firePanic control
  if !effect.injectionRevoked then ((effect, none), p, control)
  else ((effect, some ⟨p.nextSeq⟩), { p with nextSeq := p.nextSeq + 1 }, control)

/-- `clear_panic`. -/
def clearPanic (p : PanicController) : PanicController := { p with panicFired := false }

end PanicController

/-- `PanicNoticeReceiver`. -/
structure PanicNoticeReceiver where
  /-- The number of the last notice applied. -/
  lastSeq : Option UInt32
deriving DecidableEq

namespace PanicNoticeReceiver

/-- `PanicNoticeReceiver::new`. -/
def new : PanicNoticeReceiver := ⟨none⟩

/-- `PanicNoticeReceiver::apply`: whether control was severed, and what the receiver, the control
session and the controller of this side are then. -/
def apply (rx : PanicNoticeReceiver) (notice : PanicNotice) (control : ControlSession)
    (panic : PanicController) :
    Bool × PanicNoticeReceiver × ControlSession × PanicController :=
  if rx.lastSeq.any (notice.seq ≤ ·) then (false, rx, control, panic)
  else (true, ⟨some notice.seq⟩, control.setGrant none, { panic with panicFired := true })

end PanicNoticeReceiver

/-! ## The two sides -/

/-- The side that fires the panic, with the notices it has fired, oldest first. -/
structure Sender where
  /-- Its controller. -/
  panic : PanicController
  /-- Its control session. -/
  control : ControlSession
  /-- The notices fired so far. -/
  fired : List PanicNotice
deriving DecidableEq

/-- What the sender's side does. -/
inductive SenderEvent where
  /-- The controller is created for a new session. -/
  | createController
  /-- The transport comes up or goes down. -/
  | setTransportUp (up : Bool)
  /-- A control grant is installed or taken away. -/
  | setGrant (grant : Option ControlGrant)
  /-- The panic is fired without a notice. -/
  | firePanic
  /-- The panic is fired and its notice sent. -/
  | firePanicWithNotice
  /-- The panic is cleared. -/
  | clearPanic
deriving DecidableEq

namespace Sender

/-- The sender's side before anything happened. -/
def new : Sender := ⟨.new, .new, []⟩

/-- One event of the sender's side. -/
def step (s : Sender) : SenderEvent → Sender
  | .createController => { s with panic := .new }
  | .setTransportUp up => { s with panic := s.panic.setTransportUp up }
  | .setGrant grant => { s with control := s.control.setGrant grant }
  | .firePanic =>
    let (_, panic, control) := s.panic.firePanic s.control
    { s with panic, control }
  | .firePanicWithNotice =>
    let ((_, notice), panic, control) := s.panic.firePanicWithNotice s.control
    ⟨panic, control, s.fired ++ notice.toList⟩
  | .clearPanic => { s with panic := s.panic.clearPanic }

/-- The condition on the sender's events: when a notice is fired, its number is larger than those of
all notices fired before. -/
def Fresh (s : Sender) (e : SenderEvent) : Prop :=
  e = .firePanicWithNotice → s.panic.transportUp → ∀ n ∈ s.fired, n.seq < s.panic.nextSeq

/-- Whether an event of the sender is fresh can be decided. -/
instance (s : Sender) (e : SenderEvent) : Decidable (s.Fresh e) := by
  unfold Fresh
  infer_instance

/-- The numbers of the notices fired increase. -/
def Increasing (s : Sender) : Prop := s.fired.Pairwise (·.seq < ·.seq)

end Sender

/-- Both sides, with the history of the deliveries. A notice is known by its place among the notices
fired, so notices with one number are told apart. -/
structure World where
  /-- The side that fires. -/
  sender : Sender
  /-- The receiver of the other side. -/
  receiver : PanicNoticeReceiver
  /-- The control session of the receiving side. -/
  control : ControlSession
  /-- The controller of the receiving side. -/
  panic : PanicController
  /-- The notices delivered so far. -/
  delivered : List ℕ
  /-- The notices on which `apply` has severed control. -/
  applied : List ℕ
deriving DecidableEq

/-- What happens on either side. -/
inductive Event where
  /-- The sender's side does something. -/
  | sender (e : SenderEvent)
  /-- The receiving side gets a control grant, or gives it up. -/
  | setGrant (grant : Option ControlGrant)
  /-- The transport of the receiving side comes up or goes down. -/
  | setTransportUp (up : Bool)
  /-- The receiving side fires its own panic key. -/
  | firePanic
  /-- The receiving side clears the panic. -/
  | clearPanic
  /-- The network hands the receiver notice `i`, if that has been fired. -/
  | deliver (i : ℕ)
deriving DecidableEq

namespace World

/-- Both sides before anything happened. -/
def new : World := ⟨.new, .new, .new, .new, [], []⟩

/-- Notice `i` as it comes off the wire. -/
def received (w : World) (i : ℕ) : Option PanicNotice :=
  w.sender.fired[i]?.bind fun n => PanicNotice.decode n.encode

/-- What `apply` does with a notice. -/
def applyNotice (w : World) (n : PanicNotice) :
    Bool × PanicNoticeReceiver × ControlSession × PanicController :=
  w.receiver.apply n w.control w.panic

/-- One event. -/
def step (w : World) : Event → World
  | .sender e => { w with sender := w.sender.step e }
  | .setGrant grant => { w with control := w.control.setGrant grant }
  | .setTransportUp up => { w with panic := w.panic.setTransportUp up }
  | .firePanic =>
    let (_, panic, control) := w.panic.firePanic w.control
    { w with panic, control }
  | .clearPanic => { w with panic := w.panic.clearPanic }
  | .deliver i =>
    match w.received i with
    | none => w
    | some n =>
      let (severed, receiver, control, panic) := w.applyNotice n
      { w with
        receiver, control, panic
        delivered := w.delivered ++ [i]
        applied := w.applied ++ if severed then [i] else [] }

/-- What should happen with notice `i`, received as `n`: when it is newer than all delivered before,
control is severed, and when it was applied, or is older than one applied, nothing changes. -/
def ExactAt (w : World) (i : ℕ) (n : PanicNotice) : Prop :=
  ((∀ j ∈ w.delivered, j < i) →
    (w.applyNotice n).1 = true ∧ (w.applyNotice n).2.2.1.grant = none) ∧
  ((∃ j ∈ w.applied, i ≤ j) → w.applyNotice n = (false, w.receiver, w.control, w.panic))

/-- Whether a delivery is exact can be decided. -/
instance (w : World) (i : ℕ) (n : PanicNotice) : Decidable (w.ExactAt i n) := by
  unfold ExactAt
  infer_instance

/-- The delivery, if the event is one, is handled as it should be. -/
def Exact (w : World) : Event → Prop
  | .deliver i => ∀ n ∈ w.received i, w.ExactAt i n
  | _ => True

/-- Whether an event is exact can be decided: only a delivery can fail to be. -/
instance (w : World) : ∀ e, Decidable (w.Exact e)
  | .deliver i => inferInstanceAs (Decidable (∀ n ∈ w.received i, w.ExactAt i n))
  | .sender _ | .setGrant _ | .setTransportUp _ | .firePanic | .clearPanic => isTrue trivial

end World

/-- The events of the sender's side in a run. -/
def senderEvents : List Event → List SenderEvent :=
  List.filterMap fun
    | .sender e => some e
    | _ => none

/-! ## Increasing numbers are enough -/

namespace Sender

/-- Firing with the transport up uses the next number. -/
theorem step_fire {s : Sender} (h : s.panic.transportUp = true) :
    s.step .firePanicWithNotice =
      ⟨⟨true, true, s.panic.nextSeq + 1⟩, s.control.setGrant none,
        s.fired ++ [⟨s.panic.nextSeq⟩]⟩ := by
  simp [step, PanicController.firePanicWithNotice, PanicController.firePanic, h]

/-- Firing with the transport down does nothing. -/
theorem step_fire_of_down {s : Sender} (h : s.panic.transportUp = false) :
    s.step .firePanicWithNotice = s := by
  simp [step, PanicController.firePanicWithNotice, PanicController.firePanic, h]

/-- The notices fired by one event: none, or the one with the next number. -/
theorem fired_step (s : Sender) (e : SenderEvent) :
    (s.step e).fired = s.fired ∨
      (e = .firePanicWithNotice ∧ s.panic.transportUp = true ∧
        (s.step e).fired = s.fired ++ [⟨s.panic.nextSeq⟩]) := by
  cases e with
  | firePanicWithNotice =>
    cases h : s.panic.transportUp with
    | false => exact .inl (by rw [step_fire_of_down h])
    | true => exact .inr ⟨rfl, rfl, by rw [step_fire h]⟩
  | createController => exact .inl rfl
  | setTransportUp up => exact .inl rfl
  | setGrant grant => exact .inl rfl
  | firePanic => exact .inl rfl
  | clearPanic => exact .inl rfl

/-- A fresh number keeps the numbers increasing. -/
theorem Increasing.step {s : Sender} {e : SenderEvent} (h : s.Increasing) (he : s.Fresh e) :
    (s.step e).Increasing := by
  unfold Increasing
  obtain hfired | ⟨rfl, hup, hfired⟩ := s.fired_step e
  · rw [hfired]
    exact h
  · rw [hfired, List.pairwise_append]
    refine ⟨h, List.pairwise_singleton _ _, ?_⟩
    intro n hn m hm
    rw [List.mem_singleton.mp hm]
    exact he rfl hup n hn

/-- A notice keeps its place. -/
theorem getElem?_fired_step {s : Sender} {e : SenderEvent} {i : ℕ} {n : PanicNotice}
    (h : s.fired[i]? = some n) : (s.step e).fired[i]? = some n := by
  obtain hfired | ⟨-, -, hfired⟩ := s.fired_step e
  · rw [hfired, h]
  · obtain ⟨hi, -⟩ := List.getElem?_eq_some_iff.mp h
    rw [hfired, List.getElem?_append_left hi, h]

/-- With increasing numbers, the newer of two notices has the larger number. -/
theorem Increasing.seq_lt_iff {s : Sender} (h : s.Increasing) {i j : ℕ} {a b : PanicNotice}
    (ha : s.fired[i]? = some a) (hb : s.fired[j]? = some b) : a.seq < b.seq ↔ i < j := by
  obtain ⟨hi, rfl⟩ := List.getElem?_eq_some_iff.mp ha
  obtain ⟨hj, rfl⟩ := List.getElem?_eq_some_iff.mp hb
  have hlt := List.pairwise_iff_getElem.mp h
  constructor
  · intro hseq
    by_contra hij
    rcases Nat.lt_or_eq_of_le (Nat.not_lt.mp hij) with hji | rfl
    · exact absurd (UInt32.lt_trans hseq (hlt j i hj hi hji)) (UInt32.lt_irrefl _)
    · exact absurd hseq (UInt32.lt_irrefl _)
  · exact hlt i j hi hj

end Sender

/-- A receiver that has applied nothing, or only smaller numbers, severs control. -/
theorem PanicNoticeReceiver.apply_of_lt {rx : PanicNoticeReceiver} {n : PanicNotice}
    {control : ControlSession} {panic : PanicController} (h : ∀ q ∈ rx.lastSeq, q < n.seq) :
    rx.apply n control panic =
      (true, ⟨some n.seq⟩, control.setGrant none, { panic with panicFired := true }) := by
  have hany : rx.lastSeq.any (n.seq ≤ ·) = false := by
    cases hq : rx.lastSeq with
    | none => rfl
    | some q =>
      rw [Option.any_some, decide_eq_false_iff_not, UInt32.not_le]
      exact h q hq
  unfold apply
  rw [if_neg (by simp [hany])]

/-- A receiver that has applied this number or a larger one changes nothing. -/
theorem PanicNoticeReceiver.apply_of_le {rx : PanicNoticeReceiver} {n : PanicNotice} {q : UInt32}
    {control : ControlSession} {panic : PanicController} (hq : rx.lastSeq = some q)
    (h : n.seq ≤ q) : rx.apply n control panic = (false, rx, control, panic) := by
  simp [apply, hq, h]

namespace World

/-- What a delivery brings is the notice that was fired. -/
@[simp]
theorem received_eq (w : World) (i : ℕ) : w.received i = w.sender.fired[i]? := by
  unfold received
  cases w.sender.fired[i]? <;> simp

/-- A delivery does not concern the sender. -/
theorem step_deliver_sender (w : World) (i : ℕ) : (w.step (.deliver i)).sender = w.sender := by
  simp only [step]
  split <;> rfl

/-- What holds while the numbers increase: the last number applied is that of the newest notice
delivered. -/
structure Inv (w : World) : Prop where
  /-- The numbers increase. -/
  increasing : w.sender.Increasing
  /-- Before the first notice is applied, none is delivered. -/
  delivered_nil : w.receiver.lastSeq = none → w.delivered = []
  /-- The last number applied is that of an applied notice that is the newest delivered. -/
  newest : ∀ q, w.receiver.lastSeq = some q →
    ∃ m n, m ∈ w.applied ∧ w.sender.fired[m]? = some n ∧ n.seq = q ∧ ∀ j ∈ w.delivered, j ≤ m
  /-- What was applied was delivered. -/
  delivered_of_applied : ∀ j ∈ w.applied, j ∈ w.delivered

/-- A world before anything happened. -/
theorem Inv.new : new.Inv where
  increasing := List.Pairwise.nil
  delivered_nil := fun _ => rfl
  newest := by simp [World.new, PanicNoticeReceiver.new]
  delivered_of_applied := by simp [World.new]

/-- The receiver severs control on a notice newer than all delivered before. -/
theorem Inv.applyNotice_of_newer {w : World} (h : w.Inv) {i : ℕ} {n : PanicNotice}
    (hn : w.sender.fired[i]? = some n) (hi : ∀ j ∈ w.delivered, j < i) :
    w.applyNotice n =
      (true, ⟨some n.seq⟩, w.control.setGrant none, { w.panic with panicFired := true }) := by
  apply PanicNoticeReceiver.apply_of_lt
  intro q hq
  obtain ⟨m, nm, hm, hnm, rfl, -⟩ := h.newest q hq
  exact (h.increasing.seq_lt_iff hnm hn).mpr (hi m (h.delivered_of_applied m hm))

/-- The receiver ignores a notice that is not newer than all delivered before. -/
theorem Inv.applyNotice_of_not_newer {w : World} (h : w.Inv) {i j : ℕ} {n : PanicNotice}
    (hn : w.sender.fired[i]? = some n) (hj : j ∈ w.delivered) (hij : i ≤ j) :
    w.applyNotice n = (false, w.receiver, w.control, w.panic) := by
  cases hq : w.receiver.lastSeq with
  | none =>
    rw [h.delivered_nil hq] at hj
    exact absurd hj List.not_mem_nil
  | some q =>
    obtain ⟨m, nm, -, hnm, rfl, hmax⟩ := h.newest q hq
    have hnot : ¬ nm.seq < n.seq := by
      rw [h.increasing.seq_lt_iff hnm hn]
      exact Nat.not_lt.mpr (hij.trans (hmax j hj))
    exact PanicNoticeReceiver.apply_of_le hq (UInt32.not_lt.mp hnot)

/-- Every delivery is exact. -/
theorem Inv.exact {w : World} (h : w.Inv) (e : Event) : w.Exact e := by
  cases e with
  | deliver i =>
    intro n hn
    rw [received_eq, Option.mem_def] at hn
    constructor
    · intro hi
      rw [h.applyNotice_of_newer hn hi]
      exact ⟨rfl, rfl⟩
    · rintro ⟨j, hj, hij⟩
      exact h.applyNotice_of_not_newer hn (h.delivered_of_applied j hj) hij
  | sender e => trivial
  | setGrant grant => trivial
  | setTransportUp up => trivial
  | firePanic => trivial
  | clearPanic => trivial

/-- The condition on a step of the world is that on its sender. -/
def FreshStep (w : World) (e : Event) : Prop := ∀ se, e = .sender se → w.sender.Fresh se

/-- An event that touches neither the sender nor the receiver and the history keeps the
invariant. -/
theorem Inv.of_eq {w w' : World} (h : w.Inv) (hs : w'.sender = w.sender)
    (hr : w'.receiver = w.receiver) (hd : w'.delivered = w.delivered)
    (ha : w'.applied = w.applied) : w'.Inv := by
  obtain ⟨hincr, hnil, hnewest, hsub⟩ := h
  refine ⟨?_, ?_, ?_, ?_⟩
  · rwa [hs]
  · rwa [hr, hd]
  · rwa [hr, ha, hs, hd]
  · rwa [ha, hd]

/-- An event of the sender keeps the invariant. -/
theorem Inv.step_sender {w : World} (h : w.Inv) {e : SenderEvent} (he : w.sender.Fresh e) :
    (w.step (.sender e)).Inv where
  increasing := h.increasing.step he
  delivered_nil := h.delivered_nil
  newest := by
    intro q hq
    obtain ⟨m, n, hm, hn, hnq, hmax⟩ := h.newest q hq
    exact ⟨m, n, hm, Sender.getElem?_fired_step hn, hnq, hmax⟩
  delivered_of_applied := h.delivered_of_applied

/-- The world after a delivery on which control is severed. -/
theorem Inv.of_severed {w : World} (h : w.Inv) {i : ℕ} {n : PanicNotice} {control : ControlSession}
    {panic : PanicController} (hn : w.sender.fired[i]? = some n) (hi : ∀ j ∈ w.delivered, j < i) :
    ({ w with
      receiver := ⟨some n.seq⟩, control, panic
      delivered := w.delivered ++ [i], applied := w.applied ++ [i] } : World).Inv where
  increasing := h.increasing
  delivered_nil := fun hnone => absurd hnone (by simp)
  newest := by
    rintro q hq
    refine ⟨i, n, by simp, hn, Option.some.inj hq, ?_⟩
    intro j hj
    rcases List.mem_append.mp hj with hj | hj
    · exact (hi j hj).le
    · exact (List.mem_singleton.mp hj).le
  delivered_of_applied := by
    intro j hj
    rcases List.mem_append.mp hj with hj | hj
    · exact List.mem_append_left _ (h.delivered_of_applied j hj)
    · exact List.mem_append_right _ hj

/-- The world after a delivery that is ignored. -/
theorem Inv.of_ignored {w : World} (h : w.Inv) {i j : ℕ} (hj : j ∈ w.delivered) (hij : i ≤ j) :
    ({ w with delivered := w.delivered ++ [i] } : World).Inv where
  increasing := h.increasing
  delivered_nil := by
    intro hnone
    rw [h.delivered_nil hnone] at hj
    exact absurd hj List.not_mem_nil
  newest := by
    intro q hq
    obtain ⟨m, n, hm, hn, hnq, hmax⟩ := h.newest q hq
    refine ⟨m, n, hm, hn, hnq, ?_⟩
    intro k hk
    rcases List.mem_append.mp hk with hk | hk
    · exact hmax k hk
    · rw [List.mem_singleton.mp hk]
      exact hij.trans (hmax j hj)
  delivered_of_applied := fun k hk => List.mem_append_left _ (h.delivered_of_applied k hk)

/-- A delivery keeps the invariant. -/
theorem Inv.step_deliver {w : World} (h : w.Inv) (i : ℕ) : (w.step (.deliver i)).Inv := by
  cases hn : w.sender.fired[i]? with
  | none => simpa only [step, received_eq, hn] using h
  | some n =>
    by_cases hi : ∀ j ∈ w.delivered, j < i
    · simp only [step, received_eq, hn, h.applyNotice_of_newer hn hi, if_true]
      exact h.of_severed hn hi
    · push Not at hi
      obtain ⟨j, hj, hij⟩ := hi
      simp only [step, received_eq, hn, h.applyNotice_of_not_newer hn hj hij, Bool.false_eq_true,
        if_false, List.append_nil]
      exact h.of_ignored hj hij

/-- Every event that meets the condition keeps the invariant. -/
theorem Inv.step {w : World} {e : Event} (h : w.Inv) (he : w.FreshStep e) : (w.step e).Inv := by
  cases e with
  | sender e => exact h.step_sender (he e rfl)
  | deliver i => exact h.step_deliver i
  | setGrant grant => exact h.of_eq rfl rfl rfl rfl
  | setTransportUp up => exact h.of_eq rfl rfl rfl rfl
  | firePanic => exact h.of_eq rfl rfl rfl rfl
  | clearPanic => exact h.of_eq rfl rfl rfl rfl

/-- A run meets the condition when the events of its sender do. -/
theorem guarded_freshStep {r : List Event} {w : World}
    (h : Guarded Sender.step Sender.Fresh w.sender (senderEvents r)) :
    Guarded step FreshStep w r := by
  -- By induction on the events: only those of the sender are asked anything.
  induction r generalizing w with
  | nil => trivial
  | cons e r ih =>
    cases e with
    | sender e =>
      refine ⟨?_, ih h.2⟩
      rintro se heq
      obtain rfl := Event.sender.inj heq
      exact h.1
    | deliver i =>
      refine ⟨nofun, ih ?_⟩
      rw [step_deliver_sender]
      exact h
    | setGrant grant => exact ⟨nofun, ih h⟩
    | setTransportUp up => exact ⟨nofun, ih h⟩
    | firePanic => exact ⟨nofun, ih h⟩
    | clearPanic => exact ⟨nofun, ih h⟩

/-! ## And necessary -/

/-- While only the sender's side acts, the other side stays as it is. -/
theorem run_sender (w : World) (es : List SenderEvent) :
    run step w (es.map .sender) = { w with sender := run Sender.step w.sender es } := by
  induction es generalizing w with
  | nil => rfl
  | cons e es ih => exact ih (w.step (.sender e))

/-- A notice on which control is severed, in a world where one notice was applied, has a larger
number than that one. -/
theorem seq_lt_of_applyNotice {w : World} {n : PanicNotice} {q : UInt32}
    (hq : w.receiver.lastSeq = some q) (h : (w.applyNotice n).1 = true) : q < n.seq := by
  by_contra hle
  rw [applyNotice, PanicNoticeReceiver.apply_of_le hq (UInt32.not_lt.mp hle)] at h
  exact absurd h Bool.false_ne_true

/-- The first notice delivered is applied. -/
theorem step_deliver_first {w : World} {i : ℕ} {n : PanicNotice} (hr : w.receiver = .new)
    (hn : w.sender.fired[i]? = some n) :
    (w.step (.deliver i)).receiver.lastSeq = some n.seq ∧
      (w.step (.deliver i)).delivered = w.delivered ++ [i] := by
  have happ : w.applyNotice n =
      (true, ⟨some n.seq⟩, w.control.setGrant none, { w.panic with panicFired := true }) := by
    apply PanicNoticeReceiver.apply_of_lt
    simp [hr, PanicNoticeReceiver.new]
  simp [step, hn, happ]

/-- When an earlier notice and the one just fired are delivered in this order to a new receiver, and
both deliveries are exact, the one just fired has the larger number. -/
theorem seq_lt_of_exact {w : World} (hr : w.receiver = .new) (hd : w.delivered = []) {j k : ℕ}
    {a b : PanicNotice} (ha : w.sender.fired[j]? = some a) (hb : w.sender.fired[k]? = some b)
    (hjk : j < k) (h : (w.step (.deliver j)).Exact (.deliver k)) : a.seq < b.seq := by
  obtain ⟨hlast, hdelivered⟩ := step_deliver_first hr ha
  have hmem : b ∈ (w.step (.deliver j)).received k := by
    rw [received_eq, step_deliver_sender]
    exact hb
  have hnewer : ∀ i ∈ (w.step (.deliver j)).delivered, i < k := by
    rw [hdelivered, hd]
    simpa using hjk
  exact seq_lt_of_applyNotice hlast ((h b hmem).1 hnewer).1

end World

/-- The sender's events of a run in two parts. -/
theorem senderEvents_append (r r' : List Event) :
    senderEvents (r ++ r') = senderEvents r ++ senderEvents r' := List.filterMap_append

/-- The sender's events of a run of the sender alone. -/
theorem senderEvents_map (es : List SenderEvent) : senderEvents (es.map .sender) = es := by
  induction es with
  | nil => rfl
  | cons e es ih => exact congrArg (e :: ·) ih

/-- When every delivery is exact, in every order, each notice is fired with a fresh number. -/
theorem fresh_of_exact {es : List SenderEvent}
    (h : ∀ r, senderEvents r = es → Guarded World.step World.Exact .new r) :
    Guarded Sender.step Sender.Fresh .new es := by
  rw [guarded_iff_forall_append]
  rintro pre e post rfl rfl hup n hn
  obtain ⟨j, hj⟩ := List.mem_iff_getElem?.mp hn
  obtain ⟨hlt, -⟩ := List.getElem?_eq_some_iff.mp hj
  -- The notice is fired, and then an earlier one and this one are delivered.
  let fire := pre ++ [SenderEvent.firePanicWithNotice]
  let k := (run Sender.step .new pre).fired.length
  let w := run World.step .new (fire.map .sender)
  have hw : w = { World.new with
      sender := (run Sender.step .new pre).step .firePanicWithNotice } := by
    simp only [w, fire, World.run_sender, run_append, run_cons, run_nil, World.new]
  have hj' : w.sender.fired[j]? = some n := by
    rw [hw]
    exact Sender.getElem?_fired_step hj
  have hk : w.sender.fired[k]? = some ⟨(run Sender.step .new pre).panic.nextSeq⟩ := by
    rw [hw, Sender.step_fire hup]
    simp [k]
  have hexact := h (fire.map .sender ++ [.deliver j, .deliver k] ++ post.map .sender) (by
    rw [senderEvents_append, senderEvents_append, senderEvents_map, senderEvents_map]
    simp [fire, senderEvents])
  rw [guarded_iff_forall_append] at hexact
  have hdeliver := hexact (fire.map .sender ++ [.deliver j]) (.deliver k) (post.map .sender)
    (by simp)
  rw [run_append] at hdeliver
  exact World.seq_lt_of_exact (by rw [hw]; rfl) (by rw [hw]; rfl) hj' hk hlt hdeliver

/-- For every run of the sender: in all runs of both sides in which the sender does this, with any
deliveries in any order, every delivery is exact, if and only if each notice is fired with a number
larger than those of all notices fired before. -/
theorem notices_exact_iff (es : List SenderEvent) :
    (∀ r, senderEvents r = es → Guarded World.step World.Exact .new r) ↔
      Guarded Sender.step Sender.Fresh .new es := by
  constructor
  · exact fresh_of_exact
  · rintro h r rfl
    exact guarded_of_invariant (fun w e hw he => hw.step he) (fun w e hw _ => hw.exact e)
      (World.guarded_freshStep h) World.Inv.new

/-- A controller that is created again numbers its first notice 1, like the one before it, and the
receiver, which got a new grant in between, misses it. -/
theorem recreated_controller_missed :
    let r : List Event :=
      [.sender (.setTransportUp true), .sender .firePanicWithNotice, .deliver 0,
        .setGrant (some .new), .sender .createController, .sender (.setTransportUp true),
        .sender .firePanicWithNotice, .deliver 1]
    ¬ Guarded World.step World.Exact .new r ∧
      (run World.step .new r).control.grant = some .new := by
  decide +kernel

/-! ## One controller -/

namespace Sender

/-- After `k` notices are fired with the transport up. -/
theorem run_fires {s : Sender} (h : s.panic.transportUp = true) (k : ℕ) :
    (run step s (List.replicate k .firePanicWithNotice)).panic.transportUp = true ∧
      (run step s (List.replicate k .firePanicWithNotice)).panic.nextSeq =
        s.panic.nextSeq + UInt32.ofNat k ∧
      (run step s (List.replicate k .firePanicWithNotice)).fired.length = s.fired.length + k := by
  induction k generalizing s with
  | zero => simpa using h
  | succ k ih =>
    have hs : (s.step .firePanicWithNotice).panic.transportUp = true := by rw [step_fire h]
    obtain ⟨hup, hseq, hlen⟩ := ih hs
    rw [List.replicate_succ, run_cons]
    refine ⟨hup, ?_, ?_⟩
    · rw [hseq, step_fire h]
      simp [UInt32.add_assoc, UInt32.add_comm]
    · rw [hlen, step_fire h]
      simp [Nat.add_comm, Nat.add_left_comm]

/-- When the next number has wrapped to 0, it is not fresh. -/
theorem not_fresh_of_wrapped {s : Sender} (hup : s.panic.transportUp = true)
    (hzero : s.panic.nextSeq = 0) (hfired : 0 < s.fired.length) :
    ¬ s.Fresh .firePanicWithNotice := by
  intro h
  obtain ⟨n, hn⟩ := List.exists_mem_of_length_pos hfired
  have hlt := h rfl hup n hn
  rw [hzero] at hlt
  exact UInt32.not_lt_zero hlt

/-- One event of a controller that is kept: nothing is fired, or the next number is used. -/
theorem step_of_kept {s : Sender} {e : SenderEvent} (h : e ≠ .createController) :
    ((s.step e).panic.nextSeq = s.panic.nextSeq ∧ (s.step e).fired = s.fired) ∨
      (e = .firePanicWithNotice ∧ (s.step e).panic.nextSeq = s.panic.nextSeq + 1 ∧
        (s.step e).fired = s.fired ++ [⟨s.panic.nextSeq⟩]) := by
  cases e with
  | createController => exact absurd rfl h
  | firePanicWithNotice =>
    cases hup : s.panic.transportUp with
    | false => exact .inl (by simp [step_fire_of_down hup])
    | true => exact .inr (by simp [step_fire hup])
  | firePanic =>
    refine .inl ⟨?_, rfl⟩
    cases hup : s.panic.transportUp <;> simp [step, PanicController.firePanic, hup]
  | setTransportUp up => exact .inl ⟨rfl, rfl⟩
  | setGrant grant => exact .inl ⟨rfl, rfl⟩
  | clearPanic => exact .inl ⟨rfl, rfl⟩

/-- A run of a controller that is kept meets the condition, as long as it fires no more notices than
there are numbers left. -/
theorem guarded_fresh {es : List SenderEvent} {s : Sender} (hkept : .createController ∉ es)
    (hcount : s.panic.nextSeq.toNat + es.count .firePanicWithNotice ≤ 2 ^ 32)
    (hs : .firePanicWithNotice ∈ es → ∀ n ∈ s.fired, n.seq < s.panic.nextSeq) :
    Guarded step Fresh s es := by
  -- By induction on the events: each notice takes one of the numbers left.
  induction es generalizing s with
  | nil => trivial
  | cons e es ih =>
    rw [List.mem_cons, not_or] at hkept
    refine ⟨?_, ih hkept.2 ?_ ?_⟩
    · rintro rfl -
      exact hs List.mem_cons_self
    all_goals
      obtain ⟨hseq, hfired⟩ | ⟨rfl, hseq, hfired⟩ := s.step_of_kept (Ne.symm hkept.1)
    · rw [hseq]
      exact le_trans (Nat.add_le_add_left List.count_le_count_cons _) hcount
    · rw [List.count_cons_self] at hcount
      rw [hseq, UInt32.toNat_add, UInt32.toNat_one]
      have := Nat.mod_le (s.panic.nextSeq.toNat + 1) (2 ^ 32)
      omega
    · rw [hseq, hfired]
      exact fun hmem => hs (List.mem_cons_of_mem e hmem)
    · -- A further notice is fired, so the number did not wrap.
      intro hmem n hn
      have hpos := List.count_pos_iff.mpr hmem
      rw [List.count_cons_self] at hcount
      have hnext : (s.panic.nextSeq + 1).toNat = s.panic.nextSeq.toNat + 1 := by
        rw [UInt32.toNat_add, UInt32.toNat_one]
        exact Nat.mod_eq_of_lt (by omega)
      rw [hseq, UInt32.lt_iff_toNat_lt, hnext]
      rw [hfired, List.mem_append, List.mem_singleton] at hn
      rcases hn with hn | rfl
      · have := UInt32.lt_iff_toNat_lt.mp (hs List.mem_cons_self n hn)
        omega
      · exact Nat.lt_succ_self _

end Sender

/-- A controller that is kept fires fresh numbers in all runs with fewer than `2^32` notices. -/
theorem fresh_of_one_controller {es : List SenderEvent} (hkept : .createController ∉ es)
    (hcount : es.count .firePanicWithNotice < 2 ^ 32) :
    Guarded Sender.step Sender.Fresh .new es := by
  apply Sender.guarded_fresh hkept
  · change 1 + es.count .firePanicWithNotice ≤ 2 ^ 32
    omega
  · intro _ n hn
    exact absurd hn List.not_mem_nil

/-- That is as many as it can: with the transport up, notice `2^32` has the number 0 and is not
fresh. -/
theorem fresh_fires_iff (k : ℕ) :
    Guarded Sender.step Sender.Fresh .new
      (.setTransportUp true :: List.replicate k .firePanicWithNotice) ↔ k < 2 ^ 32 := by
  constructor
  · intro h
    by_contra hk
    -- With that many fires the counter comes back to zero before the last one.
    obtain ⟨c, hc⟩ : ∃ c, c + 1 = 2 ^ 32 := ⟨2 ^ 32 - 1, by norm_num⟩
    obtain ⟨m, rfl⟩ : ∃ m, k = c + (m + 1) := ⟨k - 2 ^ 32, by omega⟩
    rw [← List.replicate_append_replicate, List.replicate_succ] at h
    have hfresh := guarded_iff_forall_append.mp h
      (.setTransportUp true :: List.replicate c .firePanicWithNotice) _ _ rfl
    obtain ⟨hup, hseq, hlen⟩ :=
      Sender.run_fires (s := Sender.new.step (.setTransportUp true)) rfl c
    have hzero : (1 : UInt32) + UInt32.ofNat c = 0 := by
      rw [UInt32.add_comm, ← UInt32.ofNat_one, ← UInt32.ofNat_add, hc]
      rfl
    exact Sender.not_fresh_of_wrapped hup (hseq.trans hzero) (by omega) hfresh
  · intro hk
    apply fresh_of_one_controller
    · simp
    · simpa [List.count_cons] using hk

end LowBand.Messaging
