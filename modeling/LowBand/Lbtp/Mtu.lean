import LowBand.Lbtp.Pacer

/-!
# Path MTU discovery

`mtu.rs`: the controller probes a ladder of datagram sizes. A probe is a frame of padding on channel
8, as long as the size probed without the overhead of a datagram.

The pacer counts a header for the frame as well, and refuses what does not fit a datagram of 1200
bytes. So a probe alone in a datagram makes that two bytes too long, in whatever state the
controller is (`wireBytes_makeProbe`); and the sizes of the ladder, which are the only ones that
a run probes (`Inv`), are all too long for the pacer: `probes_never_sendable`.

The confirmed size changes only when the probe in flight is acknowledged (`pathMtu_step`), and what
is left of the ladder is above it (`Climbing`), so over runs it never decreases: `pathMtu_run`.
-/

namespace LowBand.Lbtp

open Lib

/-- `MTU_BASE_BYTES`. -/
def mtuBaseBytes : ℕ := 1200

/-- `MTU_PROBE_STEPS`. -/
def mtuProbeSteps : List ℕ := [1400, 1452, 1500]

/-- `MTU_PROBE_TIMEOUT_TICKS`. -/
def mtuProbeTimeoutTicks : ℕ := 10

/-- `MTU_PROBE_MAX_RETRIES`. -/
def mtuProbeMaxRetries : ℕ := 3

/-- `LBTP_OVERHEAD`. -/
def lbtpOverhead : ℕ := 19

/-- `MtuProbeFrame`. -/
structure MtuProbeFrame where
  /-- The size of a datagram that is probed. -/
  targetMtu : ℕ
  /-- The bytes of padding. -/
  payloadBytes : ℕ
deriving DecidableEq

/-- The frame that the transport enqueues for a probe, on channel 8, the last one. -/
def MtuProbeFrame.frame (f : MtuProbeFrame) : PacerFrame :=
  ⟨Fin.last 8, List.replicate f.payloadBytes 0⟩

/-- `MtuEvent`. -/
inductive MtuEvent where
  /-- The probe is sent again. -/
  | retransmit (frame : MtuProbeFrame)
  /-- The probe was acknowledged. -/
  | mtuRaised (newMtu : ℕ)
  /-- The probe was given up. -/
  | probeFailed (targetMtu : ℕ)
deriving DecidableEq

/-- `MtuState`. -/
inductive MtuState where
  /-- No probe is in flight. -/
  | idle (nextStepIdx : ℕ)
  /-- A probe is in flight. -/
  | probing (targetMtu stepIdx retriesLeft ticksRemaining : ℕ)
  /-- All steps were climbed. -/
  | complete
deriving DecidableEq

/-- `PathMtuController`. -/
structure PathMtuController where
  /-- The confirmed size. -/
  pathMtu : ℕ
  /-- The probe in flight, if any. -/
  state : MtuState
deriving DecidableEq

/-- `make_probe`. -/
def makeProbe (targetMtu : ℕ) : MtuProbeFrame := ⟨targetMtu, targetMtu - lbtpOverhead⟩

namespace PathMtuController

/-- `PathMtuController::new`. -/
def new : PathMtuController := ⟨mtuBaseBytes, .idle 0⟩

/-- The step that `start_probe` probes. -/
def nextStep : MtuState → Option ℕ
  | .idle nextStepIdx => some nextStepIdx
  | .probing _ stepIdx _ _ => some stepIdx
  | .complete => none

/-- `start_probe`. -/
def startProbe (c : PathMtuController) : Option MtuProbeFrame × PathMtuController :=
  match nextStep c.state with
  | none => (none, c)
  | some nextStepIdx =>
    match mtuProbeSteps[nextStepIdx]? with
    | none => (none, { c with state := .complete })
    | some targetMtu =>
      (some (makeProbe targetMtu),
        { c with
          state := .probing targetMtu nextStepIdx mtuProbeMaxRetries mtuProbeTimeoutTicks })

/-- `tick`. -/
def tick (c : PathMtuController) : Option MtuEvent × PathMtuController :=
  match c.state with
  | .probing targetMtu stepIdx retriesLeft ticksRemaining =>
    if ticksRemaining > 0 then
      (none, { c with state := .probing targetMtu stepIdx retriesLeft (ticksRemaining - 1) })
    else if retriesLeft = 0 then
      (some (.probeFailed targetMtu), { c with state := .idle stepIdx })
    else
      (some (.retransmit (makeProbe targetMtu)),
        { c with state := .probing targetMtu stepIdx (retriesLeft - 1) mtuProbeTimeoutTicks })
  | _ => (none, c)

/-- `on_probe_acked`. -/
def onProbeAcked (c : PathMtuController) (ackedMtu : ℕ) : Option MtuEvent × PathMtuController :=
  match c.state with
  | .probing targetMtu stepIdx _ _ =>
    if ackedMtu ≠ targetMtu then (none, c)
    else
      (some (.mtuRaised targetMtu), ⟨targetMtu,
        if stepIdx + 1 ≥ mtuProbeSteps.length then .complete else .idle (stepIdx + 1)⟩)
  | _ => (none, c)

end PathMtuController

/-- A call of the controller. -/
inductive MtuCall where
  /-- `start_probe`. -/
  | startProbe
  /-- `tick`. -/
  | tick
  /-- `on_probe_acked`. -/
  | onProbeAcked (ackedMtu : ℕ)
deriving DecidableEq

namespace PathMtuController

/-- The probes that a call gives the transport to send. -/
def step : Machine PathMtuController MtuCall MtuProbeFrame
  | c, .startProbe => (c.startProbe.1.toList, c.startProbe.2)
  | c, .tick =>
    match c.tick with
    | (some (.retransmit frame), c) => ([frame], c)
    | (_, c) => ([], c)
  | c, .onProbeAcked ackedMtu => ([], (c.onProbeAcked ackedMtu).2)

end PathMtuController

/-! ## Probes and the pacer -/

/-- The bytes on the wire of a datagram with these frames. -/
def wireBytes (fs : List PacerFrame) : ℕ := datagramOverhead + slots fs

/-- A probe can be sent: the pacer accepts it, and alone in a datagram it has the size probed. -/
def Sendable (p : Pacer) (f : MtuProbeFrame) : Prop :=
  (p.enqueue f.frame).1 = true ∧ wireBytes [f.frame] = f.targetMtu

/-- A probe makes the datagram as long as the overheads and the padding. -/
theorem wireBytes_frame (f : MtuProbeFrame) : wireBytes [f.frame] = 21 + f.payloadBytes := by
  simp only [wireBytes, slots, List.map_cons, List.map_nil, List.sum_cons, List.sum_nil,
    PacerFrame.slot, MtuProbeFrame.frame, List.length_replicate, datagramOverhead,
    frameHeaderOverhead]
  omega

/-- A probe never has the size probed. -/
theorem wireBytes_makeProbe (targetMtu : ℕ) :
    wireBytes [(makeProbe targetMtu).frame] ≠ targetMtu := by
  rw [wireBytes_frame, makeProbe, lbtpOverhead]
  dsimp only
  omega

/-- What the controller probes is a step of the ladder. -/
def PathMtuController.Inv (c : PathMtuController) : Prop :=
  match c.state with
  | .probing targetMtu _ _ _ => targetMtu ∈ mtuProbeSteps
  | _ => True

/-- A call gives the transport at most one probe, whatever the state. -/
theorem PathMtuController.exists_makeProbe {c : PathMtuController} {call : MtuCall}
    {f : MtuProbeFrame} (hf : f ∈ (c.step call).1) :
    ∃ targetMtu, f = makeProbe targetMtu ∧ (c.Inv → targetMtu ∈ mtuProbeSteps) := by
  obtain ⟨pathMtu, state⟩ := c
  -- Only a start and a retransmission give a probe.
  cases call with
  | startProbe =>
    simp only [step, startProbe, Option.mem_toList] at hf
    cases hnext : nextStep state with
    | none => simp [hnext] at hf
    | some nextStepIdx =>
      cases hget : mtuProbeSteps[nextStepIdx]? with
      | none => simp [hnext, hget] at hf
      | some targetMtu =>
        simp only [hnext, hget, Option.some.injEq] at hf
        exact ⟨targetMtu, hf.symm, fun _ => List.mem_of_getElem? hget⟩
  | tick =>
    cases state with
    | probing targetMtu stepIdx retriesLeft ticksRemaining =>
      simp only [step, tick] at hf
      split_ifs at hf with hrunning hlast
      · simp at hf
      · simp at hf
      · exact ⟨targetMtu, List.mem_singleton.mp hf, fun h => h⟩
    | idle | complete => simp [step, tick] at hf
  | onProbeAcked ackedMtu => simp [step] at hf

/-- What a call can make of the controller. -/
inductive PathMtuController.Next (c : PathMtuController) : MtuCall → PathMtuController → Prop where
  /-- Nothing. -/
  | unchanged (call : MtuCall) : c.Next call c
  /-- A step of the ladder is probed. -/
  | probe {i t : ℕ} (hstep : nextStep c.state = some i) (hget : mtuProbeSteps[i]? = some t) :
    c.Next .startProbe
      { c with state := .probing t i mtuProbeMaxRetries mtuProbeTimeoutTicks }
  /-- There is no step left. -/
  | climbed {i : ℕ} (hstep : nextStep c.state = some i) (hget : mtuProbeSteps[i]? = none) :
    c.Next .startProbe { c with state := .complete }
  /-- The probe stays in flight, or is sent again. -/
  | wait {t i r k : ℕ} (r' k' : ℕ) (hstate : c.state = .probing t i r k) :
    c.Next .tick { c with state := .probing t i r' k' }
  /-- The probe is given up. -/
  | giveUp {t i r k : ℕ} (hstate : c.state = .probing t i r k) :
    c.Next .tick { c with state := .idle i }
  /-- The probe in flight is acknowledged. -/
  | raised {t i r k : ℕ} (hstate : c.state = .probing t i r k) :
    c.Next (.onProbeAcked t)
      ⟨t, if i + 1 ≥ mtuProbeSteps.length then .complete else .idle (i + 1)⟩

/-- Every call does one of these. -/
theorem PathMtuController.next_step (c : PathMtuController) (call : MtuCall) :
    c.Next call (c.step call).2 := by
  -- The branches of each call, in the order of the source.
  cases call with
  | startProbe =>
    simp only [step, startProbe]
    cases hstep : nextStep c.state with
    | none => exact .unchanged _
    | some i =>
      dsimp only
      cases hget : mtuProbeSteps[i]? with
      | none => exact .climbed hstep hget
      | some t => exact .probe hstep hget
  | tick =>
    cases hstate : c.state with
    | probing t i r k =>
      simp only [step, tick, hstate]
      split_ifs with hrunning hlast
      · exact .wait _ _ hstate
      · exact .giveUp hstate
      · exact .wait _ _ hstate
    | idle | complete =>
      simp only [step, tick, hstate]
      exact .unchanged _
  | onProbeAcked ackedMtu =>
    cases hstate : c.state with
    | probing t i r k =>
      by_cases hacked : ackedMtu = t
      · subst hacked
        simp only [step, onProbeAcked, hstate, if_neg (not_not_intro rfl)]
        exact .raised hstate
      · simp only [step, onProbeAcked, hstate, if_pos hacked]
        exact .unchanged _
    | idle | complete =>
      simp only [step, onProbeAcked, hstate]
      exact .unchanged _

/-- A call keeps the invariant. -/
theorem PathMtuController.Inv.step {c : PathMtuController} (h : c.Inv) (call : MtuCall) :
    (c.step call).2.Inv := by
  have hnext := c.next_step call
  generalize (c.step call).2 = c' at hnext ⊢
  cases hnext with
  | unchanged => exact h
  | probe _ hget => exact List.mem_of_getElem? hget
  | wait _ _ hstate =>
    rw [PathMtuController.Inv, hstate] at h
    exact h
  | raised =>
    rw [PathMtuController.Inv]
    split_ifs <;> trivial
  | climbed | giveUp => trivial

/-- The pacer refuses a probe of a step of the ladder. -/
theorem enqueue_makeProbe {targetMtu : ℕ} (h : targetMtu ∈ mtuProbeSteps) (p : Pacer) :
    (p.enqueue (makeProbe targetMtu).frame).1 = false := by
  have hlong : ∀ t ∈ mtuProbeSteps, maxFrameDataBytes < t - lbtpOverhead := by decide
  have hdata : maxFrameDataBytes < (makeProbe targetMtu).frame.data.length := by
    rw [MtuProbeFrame.frame, List.length_replicate]
    exact hlong targetMtu h
  rw [Pacer.enqueue_of_lt hdata]

/-- No probe can be sent: in no state does a call give one whose datagram has the size probed, and
the pacer refuses every probe that a controller gives in a run from the start. -/
theorem probes_never_sendable (p : Pacer) :
    (∀ (c : PathMtuController) (call : MtuCall), ∀ f ∈ (c.step call).1, ¬ Sendable p f) ∧
      ∀ calls, ∀ f ∈ PathMtuController.step.emitted .new calls,
        (p.enqueue f.frame).1 = false := by
  constructor
  · intro c call f hf hsend
    obtain ⟨targetMtu, rfl, -⟩ := PathMtuController.exists_makeProbe hf
    exact wireBytes_makeProbe targetMtu hsend.2
  · intro calls
    refine Machine.forall_mem_emitted PathMtuController.Inv ?_ trivial
    intro c call hinv
    refine ⟨hinv.step call, fun f hf => ?_⟩
    obtain ⟨targetMtu, rfl, hstep⟩ := PathMtuController.exists_makeProbe hf
    exact enqueue_makeProbe (hstep hinv) p

/-- The first probe of a new controller is of 1400 bytes, has 1381 bytes of padding, is refused, and
would take 1402 bytes. -/
theorem first_probe_refused :
    PathMtuController.new.startProbe.1 = some ⟨1400, 1381⟩ ∧
      ((Pacer.new 150000).enqueue (MtuProbeFrame.frame ⟨1400, 1381⟩)).1 = false ∧
      wireBytes [MtuProbeFrame.frame ⟨1400, 1381⟩] = 1402 ∧
      ¬ Sendable (.new 150000) ⟨1400, 1381⟩ := by
  have hrefused := enqueue_makeProbe (by decide : 1400 ∈ mtuProbeSteps) (.new 150000)
  exact ⟨rfl, hrefused, wireBytes_frame _, fun hsend =>
    Bool.false_ne_true (hrefused.symm.trans hsend.1)⟩

/-! ## The confirmed size over runs -/

namespace PathMtuController

/-- The size of the probe in flight. -/
def outstanding (c : PathMtuController) : Option ℕ :=
  match c.state with
  | .probing targetMtu _ _ _ => some targetMtu
  | _ => none

/-- What is still to be climbed of the ladder is above the confirmed size, and a probe in flight is
of its first step. -/
def Climbing (c : PathMtuController) : Prop :=
  match c.state with
  | .idle nextStepIdx => ∀ t ∈ mtuProbeSteps.drop nextStepIdx, c.pathMtu < t
  | .probing targetMtu stepIdx _ _ =>
    mtuProbeSteps[stepIdx]? = some targetMtu ∧ ∀ t ∈ mtuProbeSteps.drop stepIdx, c.pathMtu < t
  | .complete => True

/-- A call leaves the confirmed size as it is, or it acknowledges the probe in flight and the size
becomes that of the probe. -/
theorem pathMtu_step (c : PathMtuController) (call : MtuCall) :
    (c.step call).2.pathMtu = c.pathMtu ∨
      ∃ t, c.outstanding = some t ∧ call = .onProbeAcked t ∧ (c.step call).2.pathMtu = t := by
  have hnext := c.next_step call
  generalize (c.step call).2 = c' at hnext ⊢
  cases hnext with
  | raised hstate => exact .inr ⟨_, by rw [outstanding, hstate], rfl, rfl⟩
  | unchanged | probe | climbed | wait | giveUp => exact .inl rfl

/-- Acknowledging the probe in flight makes its size the confirmed one. -/
theorem pathMtu_onProbeAcked {c : PathMtuController} {t : ℕ} (h : c.outstanding = some t) :
    (c.step (.onProbeAcked t)).2.pathMtu = t := by
  cases hstate : c.state with
  | probing targetMtu stepIdx retriesLeft ticksRemaining =>
    rw [outstanding, hstate] at h
    obtain rfl := Option.some.inj h
    rw [step, onProbeAcked, hstate]
    dsimp only
    rw [if_neg (not_not_intro rfl)]
  | idle | complete =>
    rw [outstanding, hstate] at h
    cases h

/-- The sizes of the ladder increase. -/
theorem lt_of_mem_drop {i t u : ℕ} (hget : mtuProbeSteps[i]? = some t)
    (hu : u ∈ mtuProbeSteps.drop (i + 1)) : t < u := by
  have hsorted : mtuProbeSteps.Pairwise (· < ·) := by decide
  obtain ⟨hlt, rfl⟩ := List.getElem?_eq_some_iff.mp hget
  have hdrop := hsorted.sublist (List.drop_sublist i mtuProbeSteps)
  rw [List.drop_eq_getElem_cons hlt] at hdrop
  exact List.rel_of_pairwise_cons hdrop hu

/-- The step that is probed next is the first one left. -/
theorem Climbing.above_of_nextStep {c : PathMtuController} (h : c.Climbing) {i : ℕ}
    (hstep : nextStep c.state = some i) : ∀ t ∈ mtuProbeSteps.drop i, c.pathMtu < t := by
  obtain ⟨pathMtu, state⟩ := c
  cases state with
  | idle => exact Option.some.inj hstep ▸ h
  | probing => exact Option.some.inj hstep ▸ h.2
  | complete => cases hstep

/-- A call goes on climbing. -/
theorem Climbing.step {c : PathMtuController} (h : c.Climbing) (call : MtuCall) :
    (c.step call).2.Climbing := by
  have hnext := c.next_step call
  generalize (c.step call).2 = c' at hnext ⊢
  -- What is left of the ladder shrinks only when a size is raised.
  cases hnext with
  | unchanged => exact h
  | probe hstep hget => exact ⟨hget, h.above_of_nextStep hstep⟩
  | climbed => trivial
  | wait _ _ hstate =>
    rw [Climbing, hstate] at h
    exact h
  | giveUp hstate =>
    rw [Climbing, hstate] at h
    exact h.2
  | raised hstate =>
    rw [Climbing, hstate] at h
    rw [Climbing]
    split_ifs
    · trivial
    · exact fun u hu => lt_of_mem_drop h.1 hu

/-- A probe in flight is above the confirmed size. -/
theorem Climbing.lt_of_outstanding {c : PathMtuController} (h : c.Climbing) {t : ℕ}
    (ht : c.outstanding = some t) : c.pathMtu < t := by
  obtain ⟨pathMtu, state⟩ := c
  cases state with
  | probing targetMtu stepIdx retriesLeft ticksRemaining =>
    obtain rfl := Option.some.inj ht
    obtain ⟨hget, habove⟩ := h
    obtain ⟨hlt, hat⟩ := List.getElem?_eq_some_iff.mp hget
    refine habove _ ?_
    rw [List.drop_eq_getElem_cons hlt, hat]
    exact List.mem_cons_self
  | idle | complete => cases ht

/-- The probe of step `i` is in flight, or given up and the next one to be sent. -/
def AtStep (c : PathMtuController) (i t : ℕ) : Prop :=
  match c.state with
  | .idle nextStepIdx => nextStepIdx = i
  | .probing targetMtu stepIdx _ _ => stepIdx = i ∧ targetMtu = t
  | .complete => False

/-- A probe of a step is started again at that step. -/
theorem AtStep.nextStep_eq {c : PathMtuController} {i t : ℕ} (h : c.AtStep i t) :
    nextStep c.state = some i := by
  obtain ⟨pathMtu, state⟩ := c
  cases state with
  | idle => exact congrArg some h
  | probing => exact congrArg some h.1
  | complete => exact h.elim

/-- Until it is acknowledged, the controller stays at a probe. -/
theorem AtStep.step {c : PathMtuController} {i t : ℕ} (hget : mtuProbeSteps[i]? = some t)
    (h : c.AtStep i t) {call : MtuCall} (hcall : call ≠ .onProbeAcked t) :
    (c.step call).2.AtStep i t ∧ (c.step call).2.pathMtu = c.pathMtu := by
  have hnext := c.next_step call
  generalize (c.step call).2 = c' at hnext ⊢
  -- Only the acknowledgement of `t` leaves the step.
  cases hnext with
  | unchanged => exact ⟨h, rfl⟩
  | probe hstep hget' =>
    obtain rfl := Option.some.inj (h.nextStep_eq.symm.trans hstep)
    exact ⟨⟨rfl, Option.some.inj (hget'.symm.trans hget)⟩, rfl⟩
  | climbed hstep hnone =>
    obtain rfl := Option.some.inj (h.nextStep_eq.symm.trans hstep)
    cases hnone.symm.trans hget
  | wait _ _ hstate =>
    rw [AtStep, hstate] at h
    exact ⟨h, rfl⟩
  | giveUp hstate =>
    rw [AtStep, hstate] at h
    exact ⟨h.1, rfl⟩
  | raised hstate =>
    rw [AtStep, hstate] at h
    exact absurd (congrArg MtuCall.onProbeAcked h.2) hcall

/-- Calls without the acknowledgement leave the confirmed size as it is. -/
theorem AtStep.pathMtu_finish {c : PathMtuController} {i t : ℕ}
    (hget : mtuProbeSteps[i]? = some t) (h : c.AtStep i t) {calls : List MtuCall}
    (hcalls : MtuCall.onProbeAcked t ∉ calls) :
    (PathMtuController.step.finish c calls).pathMtu = c.pathMtu := by
  induction calls generalizing c with
  | nil => rfl
  | cons call calls ih =>
    obtain ⟨hne, hrest⟩ := not_or.mp (mt List.mem_cons.mpr hcalls)
    obtain ⟨hnext, hsame⟩ := h.step hget (Ne.symm hne)
    exact (ih hnext hrest).trans hsame

/-- In the state after any calls, a call does not lower the confirmed size, and where it changes it,
it acknowledges the probe in flight and the size becomes that of the probe. When a probe is in
flight, acknowledging it makes its size the confirmed one; while it is not acknowledged, the size
stays as it is, through all its retries and after the last one. -/
theorem pathMtu_run (calls : List MtuCall) :
    (∀ call,
      (step.finish new calls).pathMtu ≤ ((step.finish new calls).step call).2.pathMtu ∧
      (((step.finish new calls).step call).2.pathMtu ≠ (step.finish new calls).pathMtu →
        ∃ t, (step.finish new calls).outstanding = some t ∧ call = .onProbeAcked t ∧
          ((step.finish new calls).step call).2.pathMtu = t)) ∧
    ∀ t, (step.finish new calls).outstanding = some t →
      ((step.finish new calls).step (.onProbeAcked t)).2.pathMtu = t ∧
      ∀ more, MtuCall.onProbeAcked t ∉ more →
        (step.finish (step.finish new calls) more).pathMtu = (step.finish new calls).pathMtu := by
  -- The invariant over the calls before.
  have hstart : new.Climbing := (by decide : ∀ t ∈ mtuProbeSteps.drop 0, mtuBaseBytes < t)
  have hclimb : (step.finish new calls).Climbing :=
    @run_induction _ _ (fun (c : PathMtuController) call => (c.step call).2) Climbing
      (fun _ call hc => hc.step call) new calls hstart
  refine ⟨fun call => ?_, fun t ht => ⟨pathMtu_onProbeAcked ht, fun more hmore => ?_⟩⟩
  · rcases pathMtu_step (step.finish new calls) call with hsame | ⟨t, ht, hcall, hraised⟩
    · exact ⟨hsame.ge, fun hne => absurd hsame hne⟩
    · have hlt := hclimb.lt_of_outstanding ht
      exact ⟨hraised ▸ hlt.le, fun _ => ⟨t, ht, hcall, hraised⟩⟩
  · generalize step.finish new calls = c at hclimb ht ⊢
    obtain ⟨pathMtu, state⟩ := c
    cases state with
    | probing targetMtu stepIdx retriesLeft ticksRemaining =>
      obtain rfl := Option.some.inj ht
      have hat : AtStep ⟨pathMtu, .probing targetMtu stepIdx retriesLeft ticksRemaining⟩
          stepIdx targetMtu := ⟨rfl, rfl⟩
      exact hat.pathMtu_finish hclimb.1 hmore
    | idle | complete => cases ht

end PathMtuController

end LowBand.Lbtp
