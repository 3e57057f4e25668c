import LowBand.Lib.Bytes
import LowBand.Lib.Run
import Mathlib.Data.List.Count
import Mathlib.Data.List.Induction

/-!
# The TURN relay

`turn_relay.rs`: the controller that activates a TURN relay when the direct path fails and then asks
for a refresh of its allocation from time to time, and the framer of ChannelData messages.

While the relay is active, only ticks and acknowledgements move the keepalive timer (`tick_active`),
so after any calls the timer says how many ticks came since the last acknowledgement, modulo 1201
(`finish_active`). A tick asks for a refresh exactly when it completes a multiple of 1201 ticks
without an acknowledgement (`keepalive_mem_call_iff`). An acknowledgement of ordinary traffic counts
like one of a refresh, so traffic that is acknowledged often enough keeps the timer from ever
running out, while the server's allocation, which only a refresh extends, expires:
`allocationKept_iff` says for which calls it does not.
-/

namespace LowBand.Lbtp

open Lib

/-! ## The controller -/

/-- `TURN_PROBE_TIMEOUT_TICKS`. -/
def turnProbeTimeoutTicks : ℕ := 5

/-- `TURN_PROBE_MAX_RETRIES`. -/
def turnProbeMaxRetries : ℕ := 4

/-- `TURN_KEEPALIVE_INTERVAL_TICKS`. -/
def turnKeepaliveIntervalTicks : ℕ := 1200

/-- `RelayEvent`. -/
inductive RelayEvent where
  /-- The probe is sent again. -/
  | retransmit
  /-- The allocation is confirmed. -/
  | activated
  /-- A refresh is sent. -/
  | keepalive
  /-- The relay is not reachable. -/
  | failed
deriving DecidableEq

/-- `RelayState`. -/
inductive RelayState where
  /-- The direct path is in use. -/
  | idle
  /-- The relay is probed. -/
  | probing (retriesLeft ticksRemaining : ℕ)
  /-- The relay is in use. -/
  | active (keepaliveTicks : ℕ)
  /-- The relay is not reachable. -/
  | failed
deriving DecidableEq

/-- `TurnRelayController`. -/
structure TurnRelayController where
  /-- Its state. -/
  state : RelayState
deriving DecidableEq

namespace TurnRelayController

/-- `TurnRelayController::new`. -/
def new : TurnRelayController := ⟨.idle⟩

/-- `on_direct_path_failed`. -/
def onDirectPathFailed (c : TurnRelayController) : TurnRelayController :=
  if c.state = .idle then ⟨.probing turnProbeMaxRetries turnProbeTimeoutTicks⟩ else c

/-- `on_relay_activated`. -/
def onRelayActivated (c : TurnRelayController) : Option RelayEvent × TurnRelayController :=
  match c.state with
  | .probing _ _ => (some .activated, ⟨.active turnKeepaliveIntervalTicks⟩)
  | _ => (none, c)

/-- `on_relay_ack`. -/
def onRelayAck (c : TurnRelayController) : TurnRelayController :=
  match c.state with
  | .active _ => ⟨.active turnKeepaliveIntervalTicks⟩
  | _ => c

/-- `on_direct_path_recovered`. -/
def onDirectPathRecovered (c : TurnRelayController) : TurnRelayController :=
  match c.state with
  | .active _ => ⟨.idle⟩
  | _ => c

/-- `tick`. -/
def tick (c : TurnRelayController) : Option RelayEvent × TurnRelayController :=
  match c.state with
  | .active keepaliveTicks =>
    if 0 < keepaliveTicks then (none, ⟨.active (keepaliveTicks - 1)⟩)
    else (some .keepalive, ⟨.active turnKeepaliveIntervalTicks⟩)
  | .probing retriesLeft ticksRemaining =>
    if 0 < ticksRemaining then (none, ⟨.probing retriesLeft (ticksRemaining - 1)⟩)
    else if retriesLeft = 0 then (some .failed, ⟨.failed⟩)
    else (some .retransmit, ⟨.probing (retriesLeft - 1) turnProbeTimeoutTicks⟩)
  | _ => (none, c)

/-- `is_probing`. -/
def isProbing (c : TurnRelayController) : Bool :=
  match c.state with
  | .probing _ _ => true
  | _ => false

/-- `is_active`. -/
def isActive (c : TurnRelayController) : Bool :=
  match c.state with
  | .active _ => true
  | _ => false

end TurnRelayController

/-- A call to the controller. -/
inductive RelayCall where
  /-- `on_direct_path_failed`. -/
  | directPathFailed
  /-- `on_relay_activated`. -/
  | relayActivated
  /-- `on_relay_ack`. -/
  | relayAck
  /-- `on_direct_path_recovered`. -/
  | directPathRecovered
  /-- `tick`. -/
  | tick
deriving DecidableEq

namespace TurnRelayController

/-- One call, with the event that it returns. -/
def call : Machine TurnRelayController RelayCall RelayEvent
  | c, .directPathFailed => ([], c.onDirectPathFailed)
  | c, .relayActivated => (c.onRelayActivated.1.toList, c.onRelayActivated.2)
  | c, .relayAck => ([], c.onRelayAck)
  | c, .directPathRecovered => ([], c.onDirectPathRecovered)
  | c, .tick => (c.tick.1.toList, c.tick.2)

/-- The relay is active after each call. -/
def StaysActive (c : TurnRelayController) (calls : List RelayCall) : Prop :=
  Guarded (fun c e => (call c e).2) (fun c e => (call c e).2.isActive = true) c calls

/-- The lifetime of an allocation, 600 s, in ticks of 100 ms. -/
def allocationLifetimeTicks : ℕ := 6000

/-- In every stretch of calls with the ticks of one lifetime a refresh is asked for. -/
def AllocationKept (c : TurnRelayController) (calls : List RelayCall) : Prop :=
  ∀ before window after, calls = before ++ window ++ after →
    window.count .tick = allocationLifetimeTicks →
      .keepalive ∈ call.emitted (call.finish c before) window

/-! ## The keepalive timer -/

/-- The ticks since the last acknowledgement, or since the start of the calls. -/
def ticksSinceAck (calls : List RelayCall) : ℕ :=
  (calls.reverse.takeWhile (· != .relayAck)).count .tick

/-- One more call counts a tick, starts over at an acknowledgement, or changes nothing. -/
theorem ticksSinceAck_concat (calls : List RelayCall) (e : RelayCall) :
    ticksSinceAck (calls ++ [e]) =
      match e with
      | .tick => ticksSinceAck calls + 1
      | .relayAck => 0
      | _ => ticksSinceAck calls := by
  unfold ticksSinceAck
  rw [List.reverse_append, List.reverse_singleton, List.singleton_append, List.takeWhile_cons]
  cases e <;> simp

/-- What the timer of an active relay says after `n` ticks without an acknowledgement. -/
def timerAfter (n : ℕ) : ℕ := turnKeepaliveIntervalTicks - n % (turnKeepaliveIntervalTicks + 1)

/-- The timer runs out once in 1201 ticks. -/
theorem timerAfter_eq_zero_iff (n : ℕ) :
    timerAfter n = 0 ↔ turnKeepaliveIntervalTicks + 1 ∣ n + 1 := by
  unfold timerAfter turnKeepaliveIntervalTicks
  omega

/-- One more tick. -/
theorem timerAfter_succ (n : ℕ) :
    timerAfter (n + 1) =
      if 0 < timerAfter n then timerAfter n - 1 else turnKeepaliveIntervalTicks := by
  unfold timerAfter turnKeepaliveIntervalTicks
  split <;> omega

/-- A tick of an active relay. -/
theorem tick_active (k : ℕ) :
    (⟨.active k⟩ : TurnRelayController).tick =
      if 0 < k then (none, ⟨.active (k - 1)⟩)
      else (some .keepalive, ⟨.active turnKeepaliveIntervalTicks⟩) := rfl

/-- While the relay stays active, its timer says how many ticks came since the last
acknowledgement. -/
theorem finish_active {calls : List RelayCall}
    (h : StaysActive ⟨.active turnKeepaliveIntervalTicks⟩ calls) :
    call.finish ⟨.active turnKeepaliveIntervalTicks⟩ calls
      = ⟨.active (timerAfter (ticksSinceAck calls))⟩ := by
  -- By induction on the calls, the last one first. The timer follows the ticks since the last
  -- acknowledgement.
  induction calls using List.reverseRecOn with
  | nil => rfl
  | append_singleton calls e ih =>
    obtain ⟨hcalls, he, -⟩ := (guarded_append _).mp h
    have hstate := ih hcalls
    change (call (call.finish _ calls) e).2.isActive = true at he
    rw [hstate] at he
    rw [Machine.finish_append, hstate, ticksSinceAck_concat]
    show (call _ e).2 = _
    cases e with
    | directPathFailed => rfl
    | relayActivated => rfl
    | relayAck => rfl
    | directPathRecovered => cases he
    | tick =>
      simp only [call, tick_active, timerAfter_succ]
      split <;> rfl

/-- A call to an active relay asks for a refresh when it is the tick that completes a multiple of
1201 ticks without an acknowledgement. -/
theorem keepalive_mem_call_iff {calls : List RelayCall} {e : RelayCall}
    (h : StaysActive ⟨.active turnKeepaliveIntervalTicks⟩ calls) :
    .keepalive ∈ (call (call.finish ⟨.active turnKeepaliveIntervalTicks⟩ calls) e).1 ↔
      e = .tick ∧ turnKeepaliveIntervalTicks + 1 ∣ ticksSinceAck (calls ++ [e]) := by
  rw [finish_active h]
  cases e with
  | directPathFailed => simp [call]
  | relayActivated => simp [call, onRelayActivated]
  | relayAck => simp [call]
  | directPathRecovered => simp [call]
  | tick =>
    rw [ticksSinceAck_concat, ← timerAfter_eq_zero_iff]
    simp only [call, tick_active, true_and]
    split
    · next hpos => simp [hpos.ne']
    · next hzero => simpa using hzero

/-- In every stretch of calls with the ticks of one lifetime, some tick is the 1201st in a row
without an acknowledgement, or the 2402nd, and so on. -/
def QuietEnough (calls : List RelayCall) : Prop :=
  ∀ before window after, calls = before ++ window ++ after →
    window.count .tick = allocationLifetimeTicks →
      ∃ pre post, window = pre ++ .tick :: post ∧
        turnKeepaliveIntervalTicks + 1 ∣ ticksSinceAck (before ++ pre ++ [.tick])

/-- A stretch of the calls asks for a refresh when it has such a tick. -/
theorem keepalive_mem_window_iff {before window after : List RelayCall}
    (h : StaysActive ⟨.active turnKeepaliveIntervalTicks⟩ (before ++ window ++ after)) :
    .keepalive ∈ call.emitted (call.finish ⟨.active turnKeepaliveIntervalTicks⟩ before) window ↔
      ∃ pre post, window = pre ++ .tick :: post ∧
        turnKeepaliveIntervalTicks + 1 ∣ ticksSinceAck (before ++ pre ++ [.tick]) := by
  -- The relay is active before each call of the window.
  have hpre : ∀ {pre e post}, window = pre ++ e :: post →
      StaysActive ⟨.active turnKeepaliveIntervalTicks⟩ (before ++ pre) := by
    rintro pre e post rfl
    rw [← List.append_assoc, List.append_assoc] at h
    exact ((guarded_append _).mp h).1
  rw [Machine.mem_emitted_iff]
  constructor
  · rintro ⟨pre, e, post, hwindow, hmem⟩
    rw [← Machine.finish_append, keepalive_mem_call_iff (hpre hwindow)] at hmem
    obtain ⟨rfl, hdvd⟩ := hmem
    exact ⟨pre, post, hwindow, hdvd⟩
  · rintro ⟨pre, post, hwindow, hdvd⟩
    refine ⟨pre, .tick, post, hwindow, ?_⟩
    rw [← Machine.finish_append, keepalive_mem_call_iff (hpre hwindow)]
    exact ⟨rfl, hdvd⟩

/-- A confirmed allocation starts the timer. -/
theorem finish_relayActivated {calls : List RelayCall}
    (h : (call.finish new calls).isProbing = true) :
    call.finish new (calls ++ [.relayActivated]) = ⟨.active turnKeepaliveIntervalTicks⟩ := by
  rw [Machine.finish_append]
  generalize call.finish new calls = c at h
  obtain ⟨state⟩ := c
  cases state with
  | probing retriesLeft ticksRemaining => rfl
  | idle => cases h
  | active keepaliveTicks => cases h
  | failed => cases h

/-- From any activation of the relay, for all calls in which it stays active: in every 6000
consecutive ticks a refresh is asked for if and only if in every 6000 consecutive ticks some tick
completes a multiple of 1201 ticks without an acknowledgement. -/
theorem allocationKept_iff {earlier calls : List RelayCall}
    (hprobing : (call.finish new earlier).isProbing = true)
    (hactive : StaysActive (call.finish new (earlier ++ [.relayActivated])) calls) :
    AllocationKept (call.finish new (earlier ++ [.relayActivated])) calls ↔ QuietEnough calls := by
  rw [finish_relayActivated hprobing] at hactive ⊢
  unfold AllocationKept QuietEnough
  constructor
  · rintro h before window after rfl hcount
    exact (keepalive_mem_window_iff hactive).mp (h before window after rfl hcount)
  · rintro h before window after rfl hcount
    exact (keepalive_mem_window_iff hactive).mpr (h before window after rfl hcount)

/-- Ticks alone keep the relay active. -/
theorem staysActive_ticks (k n : ℕ) : StaysActive ⟨.active k⟩ (List.replicate n .tick) := by
  induction n generalizing k with
  | zero => trivial
  | succ n ih =>
    simp only [List.replicate_succ, StaysActive, Guarded, call, tick_active]
    split
    · exact ⟨rfl, ih _⟩
    · exact ⟨rfl, ih _⟩

/-- Ticks alone all count. -/
theorem ticksSinceAck_ticks (n : ℕ) : ticksSinceAck (List.replicate n .tick) = n := by
  induction n with
  | zero => rfl
  | succ n ih => rw [List.replicate_succ', ticksSinceAck_concat, ih]

/-- One lifetime of ticks without an acknowledgement. -/
theorem allocationKept_ticks :
    AllocationKept (call.finish new ([.directPathFailed] ++ [.relayActivated]))
      (List.replicate 6000 .tick) := by
  have hactive : StaysActive (call.finish new ([.directPathFailed] ++ [.relayActivated]))
      (List.replicate 6000 .tick) := staysActive_ticks _ _
  refine (allocationKept_iff rfl hactive).mpr ?_
  intro before window after hcalls hcount
  -- The only window of 6000 ticks is the whole run.
  have hwindow : window = List.replicate 6000 .tick ∧ before = [] := by
    have hlen := congrArg List.length hcalls
    have hle := List.count_le_length (a := .tick) (l := window)
    simp only [List.length_append, List.length_replicate] at hlen
    have hcount : window.count .tick = 6000 := hcount
    have hbefore : before = [] := List.length_eq_zero_iff.mp (by omega)
    have hafter : after = [] := List.length_eq_zero_iff.mp (by omega)
    rw [hbefore, hafter, List.nil_append, List.append_nil] at hcalls
    exact ⟨hcalls.symm, hbefore⟩
  obtain ⟨rfl, rfl⟩ := hwindow
  -- The 1201st tick finds the timer run out and asks for a refresh.
  refine ⟨List.replicate 1200 .tick, List.replicate 4799 .tick, ?_, ?_⟩
  · rw [← List.replicate_succ, List.replicate_append_replicate]
  · rw [List.nil_append, ← List.replicate_succ', ticksSinceAck_ticks]
    exact dvd_rfl

/-- A relay whose every tick is followed by an acknowledgement, `n` times. -/
def ackedTicks (n : ℕ) : List RelayCall := (List.replicate n [.tick, .relayAck]).flatten

/-- One more tick with its acknowledgement. -/
theorem ackedTicks_succ (n : ℕ) :
    ackedTicks (n + 1) = .tick :: .relayAck :: ackedTicks n := by
  simp [ackedTicks, List.replicate_succ]

/-- It stays active and asks for no refresh. -/
theorem ackedTicks_spec (n : ℕ) :
    StaysActive ⟨.active turnKeepaliveIntervalTicks⟩ (ackedTicks n) ∧
      call.emitted ⟨.active turnKeepaliveIntervalTicks⟩ (ackedTicks n) = [] ∧
      (ackedTicks n).count .tick = n := by
  induction n with
  | zero => exact ⟨trivial, rfl, rfl⟩
  | succ n ih =>
    obtain ⟨hactive, hnone, hcount⟩ := ih
    rw [ackedTicks_succ]
    refine ⟨⟨rfl, rfl, hactive⟩, hnone, ?_⟩
    rw [List.count_cons_self, List.count_cons_of_ne (by simp), hcount]

/-- Traffic that is acknowledged every 100 ms: the relay stays active for a lifetime of its
allocation without asking for a refresh. -/
theorem not_allocationKept_acked :
    (call.finish new [.directPathFailed]).isProbing = true ∧
      StaysActive (call.finish new ([.directPathFailed] ++ [.relayActivated])) (ackedTicks 6000) ∧
      ¬ AllocationKept (call.finish new ([.directPathFailed] ++ [.relayActivated]))
        (ackedTicks 6000) := by
  obtain ⟨hactive, hnone, hcount⟩ := ackedTicks_spec 6000
  refine ⟨rfl, hactive, fun h => ?_⟩
  have hmem := h [] (ackedTicks 6000) [] (by rw [List.nil_append, List.append_nil]) hcount
  change _ ∈ call.emitted ⟨.active turnKeepaliveIntervalTicks⟩ (ackedTicks 6000) at hmem
  rw [hnone] at hmem
  cases hmem

end TurnRelayController

/-! ## The framer -/

/-- `TURN_CHANNEL_HEADER_BYTES`. -/
def turnChannelHeaderBytes : ℕ := 4

/-- `TURN_MAX_PAYLOAD_BYTES`. -/
def turnMaxPayloadBytes : ℕ := 1200

/-- `TurnChannelDataFramer`. -/
structure TurnChannelDataFramer where
  /-- The channel number. -/
  channelNumber : UInt16
deriving DecidableEq

namespace TurnChannelDataFramer

/-- `encode`: a ciphertext with the channel and its length in front. -/
def encode (f : TurnChannelDataFramer) (ciphertext : List UInt8) : Option (List UInt8) :=
  if ciphertext.length > turnMaxPayloadBytes then none
  else some (beBytes 2 f.channelNumber.toNat ++ beBytes 2 ciphertext.length ++ ciphertext)

/-- `decode`: the channel and the ciphertext of a message of the right length. -/
def decode (bytes : List UInt8) : Option (UInt16 × List UInt8) :=
  if bytes.length < turnChannelHeaderBytes then none
  else
    let channel := UInt16.ofNat (ofBE (bytes.take 2))
    let dataLen := ofBE ((bytes.drop 2).take 2)
    if bytes.length ≠ turnChannelHeaderBytes + dataLen then none
    else some (channel, bytes.drop turnChannelHeaderBytes)

/-- The framer takes what is not longer than a datagram. -/
theorem encode_isSome_iff (f : TurnChannelDataFramer) (ciphertext : List UInt8) :
    (f.encode ciphertext).isSome = true ↔ ciphertext.length ≤ turnMaxPayloadBytes := by
  unfold encode
  split
  · next h => simpa using h
  · next h => simpa using h

/-- What is framed reads back. -/
theorem decode_encode {f : TurnChannelDataFramer} {ciphertext message : List UInt8}
    (h : f.encode ciphertext = some message) :
    decode message = some (f.channelNumber, ciphertext) := by
  have hlen : ciphertext.length ≤ turnMaxPayloadBytes :=
    (f.encode_isSome_iff ciphertext).mp (by rw [h]; rfl)
  unfold encode at h
  rw [if_neg (Nat.not_lt.mpr hlen), Option.some.injEq] at h
  subst h
  unfold turnMaxPayloadBytes at hlen
  -- The three parts of the message: channel number, length, payload.
  have htake : (beBytes 2 f.channelNumber.toNat ++ beBytes 2 ciphertext.length ++ ciphertext).take 2
      = beBytes 2 f.channelNumber.toNat := by
    rw [List.append_assoc]
    exact List.take_left' (length_beBytes 2 _)
  have hdrop : ((beBytes 2 f.channelNumber.toNat ++ beBytes 2 ciphertext.length
      ++ ciphertext).drop 2).take 2 = beBytes 2 ciphertext.length := by
    rw [List.append_assoc, List.drop_left' (length_beBytes 2 _)]
    exact List.take_left' (length_beBytes 2 _)
  have hrest : (beBytes 2 f.channelNumber.toNat ++ beBytes 2 ciphertext.length
      ++ ciphertext).drop turnChannelHeaderBytes = ciphertext :=
    List.drop_left' (by simp [turnChannelHeaderBytes])
  -- The length fits its two bytes.
  have hmod : ciphertext.length % 256 ^ 2 = ciphertext.length := Nat.mod_eq_of_lt (by omega)
  have htotal : (beBytes 2 f.channelNumber.toNat ++ beBytes 2 ciphertext.length
      ++ ciphertext).length = turnChannelHeaderBytes + ciphertext.length := by
    simp only [List.length_append, length_beBytes, turnChannelHeaderBytes]
  unfold decode
  rw [htake, hdrop, hrest, htotal, ofBE_beBytes, ofBE_beBytes, hmod,
    if_neg (Nat.not_lt.mpr (Nat.le_add_right _ _))]
  simp

end TurnChannelDataFramer

end LowBand.Lbtp
