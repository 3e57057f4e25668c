import LowBand.Lib.Bytes
import LowBand.Lib.Retry

/-!
# Hole punching

`HolePunchController` of `core/lbtp/src/hole_punch.rs`: ten probes at most, six ticks apart, to open
a path through a NAT. A probe is the nonce of the start and a sequence number; any datagram from the
peer ends the probing.

The controller is a retried request of ten sendings whose answers are all accepted (`call_view`). So
after a start the probes have the sequence numbers from 0 on, each once and in order, one for each
six ticks begun and never more than ten, and the path is connected exactly when a datagram comes
within 60 ticks (`punch_probes`).
-/

namespace LowBand.Lbtp

open Lib

/-- `HOLE_PUNCH_PROBE_INTERVAL_TICKS`. -/
def holePunchProbeIntervalTicks : ℕ := 5

/-- `HOLE_PUNCH_MAX_PROBES`. -/
def holePunchMaxProbes : ℕ := 10

/-- `HOLE_PUNCH_PROBE_PAYLOAD_BYTES`. -/
def holePunchProbePayloadBytes : ℕ := 5

/-- `HolePunchProbeFrame`. -/
structure HolePunchProbeFrame where
  /-- The nonce and the sequence number. -/
  payload : Bytes holePunchProbePayloadBytes
deriving DecidableEq

/-- `HolePunchProbeFrame::new`. -/
def HolePunchProbeFrame.new (nonce : UInt32) (seq : UInt8) : HolePunchProbeFrame where
  payload := ⟨leBytes 4 nonce.toNat ++ [seq], by simp [holePunchProbePayloadBytes]⟩

/-- `HolePunchEvent`. -/
inductive HolePunchEvent where
  /-- A probe is to be sent. -/
  | sendProbe (frame : HolePunchProbeFrame)
  /-- The path is open. -/
  | connected
  /-- No datagram came. -/
  | failed
deriving DecidableEq

/-- `HolePunchState`. -/
inductive HolePunchState where
  /-- Nothing was started. -/
  | idle
  /-- Probes are out. -/
  | probing (nonce : UInt32) (probesSent ticksRemaining : ℕ)
  /-- The path is open. -/
  | connected
  /-- No datagram came. -/
  | failed
deriving DecidableEq

/-- `HolePunchController`. -/
structure HolePunchController where
  /-- The state. -/
  state : HolePunchState
deriving DecidableEq

namespace HolePunchController

/-- `HolePunchController::new`. -/
def new : HolePunchController := ⟨.idle⟩

/-- `HolePunchController::start`. -/
def start (_ : HolePunchController) (nonce : UInt32) : HolePunchProbeFrame × HolePunchController :=
  (.new nonce 0, ⟨.probing nonce 1 holePunchProbeIntervalTicks⟩)

/-- `HolePunchController::tick`. -/
def tick (c : HolePunchController) : Option HolePunchEvent × HolePunchController :=
  match c.state with
  | .probing nonce probesSent ticksRemaining =>
    if 0 < ticksRemaining then (none, ⟨.probing nonce probesSent (ticksRemaining - 1)⟩)
    else if holePunchMaxProbes ≤ probesSent then (some .failed, ⟨.failed⟩)
    else
      (some (.sendProbe (.new nonce (.ofNat probesSent))),
        ⟨.probing nonce (probesSent + 1) holePunchProbeIntervalTicks⟩)
  | _ => (none, c)

/-- `HolePunchController::on_probe_received`. -/
def onProbeReceived (c : HolePunchController) : Option HolePunchEvent × HolePunchController :=
  match c.state with
  | .probing .. => (some .connected, ⟨.connected⟩)
  | _ => (none, c)

/-- `HolePunchController::is_connected`. -/
def isConnected (c : HolePunchController) : Bool := c.state == .connected

/-- `HolePunchController::is_failed`. -/
def isFailed (c : HolePunchController) : Bool := c.state == .failed

/-- `HolePunchController::probes_sent`. -/
def probesSent (c : HolePunchController) : ℕ :=
  match c.state with
  | .probing _ probesSent _ => probesSent
  | .failed => holePunchMaxProbes
  | _ => 0

end HolePunchController

/-! ## The controller as a retried request -/

/-- A call of the controller. -/
abbrev PunchCall := Retry.Input UInt32 Unit

/-- Ten probes, six ticks apart; any datagram answers them. -/
def punchParams : Retry.Params UInt32 Unit where
  pause := holePunchProbeIntervalTicks
  most := holePunchMaxProbes
  most_pos := by decide
  accepts := fun _ _ => true

namespace HolePunchController

/-- A call: the probe frames that it hands out, and the controller after it. -/
def call : Machine HolePunchController PunchCall HolePunchProbeFrame
  | c, .start nonce => ([(c.start nonce).1], (c.start nonce).2)
  | c, .tick =>
    match c.tick with
    | (some (.sendProbe frame), c) => ([frame], c)
    | (_, c) => ([], c)
  | c, .answer () => ([], c.onProbeReceived.2)

/-- The state as that of a retried request. -/
def view (c : HolePunchController) : Retry.State UInt32 :=
  match c.state with
  | .idle => .idle
  | .probing nonce probesSent ticksRemaining => .waiting nonce probesSent ticksRemaining
  | .connected => .answered
  | .failed => .failed

/-- The frame of a sending. -/
def frameOf (sending : UInt32 × ℕ) : HolePunchProbeFrame := .new sending.1 (.ofNat sending.2)

/-- A call is a step of the retried request, and hands out the frames of its sendings. -/
theorem call_view (c : HolePunchController) (e : PunchCall) :
    (call c e).2.view = (Retry.step punchParams c.view e).2 ∧
      (call c e).1 = (Retry.sendings (Retry.step punchParams c.view e).1).map frameOf := by
  obtain ⟨state⟩ := c
  cases e with
  | start nonce => cases state <;> exact ⟨rfl, rfl⟩
  | tick =>
    cases state with
    | idle | connected | failed => exact ⟨rfl, rfl⟩
    | probing nonce probesSent ticksRemaining =>
      have hmost : punchParams.most = holePunchMaxProbes := rfl
      simp only [call, tick, view, Retry.step, hmost]
      -- Waiting for the next probe, giving up after the last one, or sending one more.
      by_cases hleft : 0 < ticksRemaining
      · simp only [if_pos hleft]
        exact ⟨trivial, rfl⟩
      · by_cases hlast : holePunchMaxProbes ≤ probesSent
        · simp only [if_neg hleft, if_pos hlast]
          exact ⟨trivial, rfl⟩
        · simp only [if_neg hleft, if_neg hlast]
          exact ⟨rfl, rfl⟩
  | answer a => cases state <;> exact ⟨rfl, rfl⟩

/-- The flags and the counter read the state. -/
theorem flags_view (c : HolePunchController) :
    (c.isConnected ↔ c.view = .answered) ∧ (c.isFailed ↔ c.view = .failed) ∧
      (∀ nonce sent left, c.view = .waiting nonce sent left → c.probesSent = sent) ∧
      (c.view = .failed → c.probesSent = holePunchMaxProbes) := by
  obtain ⟨state⟩ := c
  cases state <;> simp [isConnected, isFailed, probesSent, view]

/-- A run of calls is a run of the retried request. -/
theorem run_view (c : HolePunchController) (es : List PunchCall) :
    (call.finish c es).view = (Retry.step punchParams).finish c.view es ∧
      call.emitted c es =
        (Retry.sendings ((Retry.step punchParams).emitted c.view es)).map frameOf := by
  induction es generalizing c with
  | nil => exact ⟨rfl, rfl⟩
  | cons e es ih =>
    obtain ⟨hview, hout⟩ := call_view c e
    obtain ⟨hlast, hrest⟩ := ih (call c e).2
    rw [hview] at hlast hrest
    refine ⟨hlast, ?_⟩
    rw [Machine.emitted, Machine.emitted, hout, hrest, ← List.map_append]
    exact congrArg _ List.filterMap_append.symm

end HolePunchController

open HolePunchController Retry

/-- A datagram came within the 60 ticks of a probing. -/
abbrev HeardInTime (nonce : UInt32) (es : List PunchCall) : Prop :=
  inTime punchParams nonce 0 es = true

/-- After a start, and before another, the probes that were sent are those of the numbers from 0 on,
each once and in order. There are at most ten; while no datagram has come there is one for each six
ticks begun, and `probes_sent` counts them. The path is connected exactly when a datagram came
within 60 ticks, and has failed when 60 ticks passed without one. -/
theorem punch_probes (c : HolePunchController) (nonce : UInt32) (es : List PunchCall)
    (hes : NoStart es) :
    let after := call.finish c (.start nonce :: es)
    ∃ n ≤ 10,
      (call.emitted c (.start nonce :: es)).map (·.payload.val) =
        (List.range n).map (fun seq => leBytes 4 nonce.toNat ++ [UInt8.ofNat seq]) ∧
      (¬ HeardInTime nonce es → n = min 10 (ticks es / 6 + 1) ∧ after.probesSent = n) ∧
      (after.isConnected ↔ HeardInTime nonce es) ∧
      (after.isFailed ↔ ¬ HeardInTime nonce es ∧ 60 ≤ ticks es) := by
  intro after
  obtain ⟨n, hn, hsent, hall⟩ := emitted_start (P := punchParams) c.view nonce hes
  obtain ⟨hview, hout⟩ := run_view c (.start nonce :: es)
  -- The state is a function of the calls since the start.
  have hstate : after.view = stateOf punchParams (some (nonce, es)) := by
    rw [hview, finish_start c.view nonce hes]
  obtain ⟨hconnected, hfailed, hwaiting, hmax⟩ := flags_view after
  have hperiod : punchParams.period = 6 := rfl
  have hlife : punchParams.lifetime = 60 := rfl
  rw [hperiod] at hall
  refine ⟨n, hn, ?_, ?_, ?_⟩
  · rw [hout, hsent, List.map_map, List.map_map]
    rfl
  -- Nobody answered, so the probes went out on the ticks alone.
  · intro hquiet
    have hcount : n = min 10 (ticks es / 6 + 1) := hall (by simpa using hquiet)
    refine ⟨hcount, ?_⟩
    simp only [stateOf, if_neg hquiet, hlife, hperiod] at hstate
    by_cases hlt : ticks es < 60
    · rw [if_pos hlt] at hstate
      rw [hwaiting _ _ _ hstate, hcount]
      omega
    · rw [if_neg hlt] at hstate
      have hten : holePunchMaxProbes = 10 := rfl
      rw [hmax hstate, hcount]
      omega
  -- Connected by an answer in time, failed by sixty ticks without one.
  · rw [hconnected, hfailed, hstate]
    simp only [stateOf, hlife]
    by_cases hin : HeardInTime nonce es
    · rw [if_pos hin]
      exact ⟨iff_of_true rfl hin, iff_of_false (by simp) fun h => h.1 hin⟩
    · by_cases hlt : ticks es < 60
      · simp [hin, hlt]
      · simp [hin, hlt, Nat.le_of_not_lt hlt]

/-- A start in the middle of a probing: seven ticks bring the first two probes of the new nonce. -/
theorem punch_probes_restart :
    let c := call.finish .new [.start 1, .tick]
    let es : List PunchCall := List.replicate 7 .tick
    ∃ n ≤ 10, (call.emitted c (.start 0x01020304 :: es)).map (·.payload.val) =
        (List.range n).map (fun seq => [4, 3, 2, 1] ++ [UInt8.ofNat seq]) ∧ n = 2 := by
  intro c es
  have hes : NoStart es := fun nonce h => nomatch List.eq_of_mem_replicate h
  obtain ⟨n, hn, hsent, hquiet, -⟩ := punch_probes c 0x01020304 es hes
  have htwo : min 10 (ticks es / 6 + 1) = 2 := by decide
  exact ⟨n, hn, hsent, (hquiet (by decide)).1.trans htwo⟩

end LowBand.Lbtp
