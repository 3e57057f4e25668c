import LowBand.Lib.Run
import Mathlib.Algebra.Ring.Nat
import Mathlib.Data.List.Nodup
import Mathlib.Tactic.Common

/-!
# Gathering ICE candidates

`IceCandidateGatherer` of `ice_candidate.rs` gives the host candidates when it is started, asks a
STUN server for the address that the NAT maps to and a TURN server for a relay, and gives up on each
after some retransmissions. A new start resets it at any time. Responses come in any order, and
those that it does not wait for are ignored.

`Moves` lists what an event other than a start can do. The rest is about stocks that a move takes
from and none adds to: the candidates of a class still to come, the completion still to come
(`countP_emitted_le`), and the ticks until the last timeout (`ticksLeft_finish`).
-/

namespace LowBand.Lbtp

open Lib

/-! ## Constants and candidates -/

/-- `ICE_STUN_TIMEOUT_TICKS`. -/
def iceStunTimeoutTicks : ℕ := 5

/-- `ICE_STUN_MAX_RETRIES`. -/
def iceStunMaxRetries : ℕ := 2

/-- `ICE_TURN_TIMEOUT_TICKS`. -/
def iceTurnTimeoutTicks : ℕ := 10

/-- `ICE_TURN_MAX_RETRIES`. -/
def iceTurnMaxRetries : ℕ := 2

/-- `ICE_HOST_TYPE_PREFERENCE`. -/
def iceHostTypePreference : UInt32 := 126

/-- `ICE_SRFLX_TYPE_PREFERENCE`. -/
def iceSrflxTypePreference : UInt32 := 100

/-- `ICE_RELAY_TYPE_PREFERENCE`. -/
def iceRelayTypePreference : UInt32 := 0

/-- `ICE_LOCAL_PREFERENCE_BASE`. -/
def iceLocalPreferenceBase : UInt32 := 65535

/-- `ICE_COMPONENT_ID`. -/
def iceComponentId : UInt32 := 1

/-- `ice_priority`. -/
def icePriority (typePref localPref : UInt32) : UInt32 :=
  (typePref <<< 24) ||| (localPref <<< 8) ||| (256 - iceComponentId)

/-- The two preferences do not overlap in the priority. -/
theorem toNat_icePriority {typePref localPref : UInt32} (htype : typePref.toNat < 2 ^ 8)
    (hlocal : localPref.toNat < 2 ^ 16) :
    (icePriority typePref localPref).toNat
      = 2 ^ 24 * typePref.toNat + 2 ^ 8 * localPref.toNat + 255 := by
  have hlow : 2 ^ 8 * localPref.toNat ||| 255 = 2 ^ 8 * localPref.toNat + 255 :=
    (Nat.two_pow_add_eq_or_of_lt (by decide) _).symm
  have hhigh : 2 ^ 24 * typePref.toNat ||| (2 ^ 8 * localPref.toNat + 255)
      = 2 ^ 24 * typePref.toNat + (2 ^ 8 * localPref.toNat + 255) :=
    (Nat.two_pow_add_eq_or_of_lt (by omega) _).symm
  have htypeShift : (typePref <<< 24).toNat = 2 ^ 24 * typePref.toNat := by
    rw [UInt32.toNat_shiftLeft, Nat.shiftLeft_eq, show (24 : UInt32).toNat % 32 = 24 from rfl,
      Nat.mod_eq_of_lt (by omega), Nat.mul_comm]
  have hlocalShift : (localPref <<< 8).toNat = 2 ^ 8 * localPref.toNat := by
    rw [UInt32.toNat_shiftLeft, Nat.shiftLeft_eq, show (8 : UInt32).toNat % 32 = 8 from rfl,
      Nat.mod_eq_of_lt (by omega), Nat.mul_comm]
  unfold icePriority
  rw [UInt32.toNat_or, UInt32.toNat_or, htypeShift, hlocalShift, Nat.or_assoc, Nat.add_assoc,
    ← hhigh, ← hlow]
  rfl

/-- `IceCandidateType`. -/
inductive IceCandidateType where
  | host
  | serverReflexive
  | relayed
deriving DecidableEq

variable {Addr : Type*}

/-- `IceCandidate`, at a type of transport addresses. -/
structure IceCandidate (Addr : Type*) where
  /-- The class. -/
  candidateType : IceCandidateType
  /-- The transport address. -/
  addr : Addr
  /-- The priority. -/
  priority : UInt32
  /-- The foundation. -/
  foundation : UInt32
deriving DecidableEq

namespace IceCandidate

/-- `IceCandidate::host`. -/
def host (addr : Addr) (localPref foundation : UInt32) : IceCandidate Addr :=
  ⟨.host, addr, icePriority iceHostTypePreference localPref, foundation⟩

/-- `IceCandidate::server_reflexive`. -/
def serverReflexive (addr : Addr) (foundation : UInt32) : IceCandidate Addr :=
  ⟨.serverReflexive, addr, icePriority iceSrflxTypePreference iceLocalPreferenceBase, foundation⟩

/-- `IceCandidate::relayed`. -/
def relayed (addr : Addr) (foundation : UInt32) : IceCandidate Addr :=
  ⟨.relayed, addr, icePriority iceRelayTypePreference iceLocalPreferenceBase, foundation⟩

end IceCandidate

/-- `IceCandidateEvent`. -/
inductive IceCandidateEvent (Addr : Type*) where
  | candidateReady (candidate : IceCandidate Addr)
  | sendStunRequest
  | retransmitStun
  | sendTurnAllocate
  | retransmitTurn
  | gatheringComplete
deriving DecidableEq

namespace IceCandidateEvent

/-- The candidate of an event. -/
def candidate? : IceCandidateEvent Addr → Option (IceCandidate Addr)
  | .candidateReady candidate => some candidate
  | _ => none

/-- The event gives a candidate of a class. -/
def isOf (type : IceCandidateType) : IceCandidateEvent Addr → Bool
  | .candidateReady candidate => candidate.candidateType = type
  | _ => false

/-- The event is the completion. -/
def isComplete : IceCandidateEvent Addr → Bool
  | .gatheringComplete => true
  | _ => false

end IceCandidateEvent

/-- The candidates of some events. -/
def candidates (events : List (IceCandidateEvent Addr)) : List (IceCandidate Addr) :=
  events.filterMap IceCandidateEvent.candidate?

/-! ## The gatherer -/

/-- `GatherState`. -/
inductive GatherState where
  | idle
  | gatheringServerReflexive (retriesLeft ticksRemaining : ℕ)
  | gatheringRelayed (retriesLeft ticksRemaining : ℕ)
  | complete
deriving DecidableEq

/-- `IceCandidateGatherer`. -/
structure IceCandidateGatherer where
  /-- The state. -/
  state : GatherState
  /-- The foundation of the next candidate. -/
  nextFoundation : UInt32
deriving DecidableEq

/-- The calls of a gatherer. -/
inductive IceInput (Addr : Type*) where
  | start (hostAddrs : List Addr)
  | onStunResponse (mappedAddr : Addr)
  | onTurnAllocated (relayAddr : Addr)
  | tick
deriving DecidableEq

namespace IceInput

/-- The call is `start`. -/
def isStart : IceInput Addr → Bool
  | .start _ => true
  | _ => false

/-- The ticks in a call. -/
def ticks : IceInput Addr → ℕ
  | .tick => 1
  | _ => 0

end IceInput

/-- `saturating_sub` of `u32`. -/
def saturatingSubU32 (a b : UInt32) : UInt32 := if b ≤ a then a - b else 0

/-- A subtraction that saturates is that of natural numbers. -/
theorem toNat_saturatingSubU32 (a b : UInt32) :
    (saturatingSubU32 a b).toNat = a.toNat - b.toNat := by
  unfold saturatingSubU32
  split
  · next h => exact UInt32.toNat_sub_of_le _ _ h
  · next h =>
    have hlt : a.toNat < b.toNat := by
      rw [UInt32.le_iff_toNat_le] at h
      omega
    rw [Nat.sub_eq_zero_of_le (Nat.le_of_lt hlt)]
    rfl

/-- The state that waits for the STUN server's first response. -/
def waitForStun : GatherState := .gatheringServerReflexive iceStunMaxRetries iceStunTimeoutTicks

/-- The state that waits for the TURN server's first response. -/
def waitForTurn : GatherState := .gatheringRelayed iceTurnMaxRetries iceTurnTimeoutTicks

namespace IceCandidateGatherer

/-- `IceCandidateGatherer::new`. -/
def new : IceCandidateGatherer := ⟨.idle, 1⟩

/-- The loop of `start` over the addresses from the `i`-th on: its events and the next
foundation. -/
def startLoop : ℕ → UInt32 → List Addr → List (IceCandidateEvent Addr) × UInt32
  | _, nextFoundation, [] => ([], nextFoundation)
  | i, nextFoundation, addr :: addrs =>
    let localPref := saturatingSubU32 iceLocalPreferenceBase (.ofNat i)
    let (events, after) := startLoop (i + 1) (nextFoundation + 1) addrs
    (.candidateReady (.host addr localPref nextFoundation) :: events, after)

/-- `start`. -/
def start (g : IceCandidateGatherer) (hostAddrs : List Addr) :
    List (IceCandidateEvent Addr) × IceCandidateGatherer :=
  let (events, nextFoundation) := startLoop 0 g.nextFoundation hostAddrs
  (events ++ [.sendStunRequest], ⟨waitForStun, nextFoundation⟩)

/-- `on_stun_response`. -/
def onStunResponse (g : IceCandidateGatherer) (mappedAddr : Addr) :
    Option (List (IceCandidateEvent Addr)) × IceCandidateGatherer :=
  match g.state with
  | .gatheringServerReflexive _ _ =>
    let candidate := .serverReflexive mappedAddr g.nextFoundation
    (some [.candidateReady candidate, .sendTurnAllocate], ⟨waitForTurn, g.nextFoundation + 1⟩)
  | _ => (none, g)

/-- `on_turn_allocated`. -/
def onTurnAllocated (g : IceCandidateGatherer) (relayAddr : Addr) :
    Option (List (IceCandidateEvent Addr)) × IceCandidateGatherer :=
  match g.state with
  | .gatheringRelayed _ _ =>
    let candidate := .relayed relayAddr g.nextFoundation
    (some [.candidateReady candidate, .gatheringComplete], ⟨.complete, g.nextFoundation + 1⟩)
  | _ => (none, g)

/-- `tick`. -/
def tick (g : IceCandidateGatherer) : Option (IceCandidateEvent Addr) × IceCandidateGatherer :=
  match g.state with
  | .gatheringServerReflexive retriesLeft ticksRemaining =>
    if ticksRemaining > 0 then
      (none, { g with state := .gatheringServerReflexive retriesLeft (ticksRemaining - 1) })
    else if retriesLeft = 0 then (some .sendTurnAllocate, { g with state := waitForTurn })
    else
      (some .retransmitStun,
        { g with state := .gatheringServerReflexive (retriesLeft - 1) iceStunTimeoutTicks })
  | .gatheringRelayed retriesLeft ticksRemaining =>
    if ticksRemaining > 0 then
      (none, { g with state := .gatheringRelayed retriesLeft (ticksRemaining - 1) })
    else if retriesLeft = 0 then (some .gatheringComplete, { g with state := .complete })
    else
      (some .retransmitTurn,
        { g with state := .gatheringRelayed (retriesLeft - 1) iceTurnTimeoutTicks })
  | _ => (none, g)

/-- A call, with the events that it returns. -/
def step : Machine IceCandidateGatherer (IceInput Addr) (IceCandidateEvent Addr)
  | g, .start hostAddrs => g.start hostAddrs
  | g, .onStunResponse addr =>
    let (events, g) := g.onStunResponse addr
    (events.getD [], g)
  | g, .onTurnAllocated addr =>
    let (events, g) := g.onTurnAllocated addr
    (events.getD [], g)
  | g, .tick =>
    let (event, g) := g.tick
    (event.toList, g)

/-! ## What a call can do -/

/-- What a call other than `start` does: its events, and the gatherer after it. -/
inductive Moves : IceCandidateGatherer → IceInput Addr → List (IceCandidateEvent Addr) →
    IceCandidateGatherer → Prop
  | stunResponse (r t f addr) :
    Moves ⟨.gatheringServerReflexive r t, f⟩ (.onStunResponse addr)
      [.candidateReady (.serverReflexive addr f), .sendTurnAllocate] ⟨waitForTurn, f + 1⟩
  | turnAllocated (r t f addr) :
    Moves ⟨.gatheringRelayed r t, f⟩ (.onTurnAllocated addr)
      [.candidateReady (.relayed addr f), .gatheringComplete] ⟨.complete, f + 1⟩
  | stunWait (r t f) :
    Moves ⟨.gatheringServerReflexive r (t + 1), f⟩ .tick [] ⟨.gatheringServerReflexive r t, f⟩
  | stunRetry (r f) :
    Moves ⟨.gatheringServerReflexive (r + 1) 0, f⟩ .tick [.retransmitStun]
      ⟨.gatheringServerReflexive r iceStunTimeoutTicks, f⟩
  | stunGiveUp (f) :
    Moves ⟨.gatheringServerReflexive 0 0, f⟩ .tick [.sendTurnAllocate] ⟨waitForTurn, f⟩
  | turnWait (r t f) :
    Moves ⟨.gatheringRelayed r (t + 1), f⟩ .tick [] ⟨.gatheringRelayed r t, f⟩
  | turnRetry (r f) :
    Moves ⟨.gatheringRelayed (r + 1) 0, f⟩ .tick [.retransmitTurn]
      ⟨.gatheringRelayed r iceTurnTimeoutTicks, f⟩
  | turnGiveUp (f) :
    Moves ⟨.gatheringRelayed 0 0, f⟩ .tick [.gatheringComplete] ⟨.complete, f⟩
  | ignored (g e) (h : e.ticks = 0 ∨ g.state = .idle ∨ g.state = .complete) : Moves g e [] g

/-- A call other than `start` makes one of these moves. -/
theorem moves_step (g : IceCandidateGatherer) {e : IceInput Addr} (he : e.isStart = false) :
    Moves g e (step g e).1 (step g e).2 := by
  obtain ⟨state, f⟩ := g
  cases e with
  | start hostAddrs => cases he
  | onStunResponse addr =>
    cases state with
    | gatheringServerReflexive r t => exact .stunResponse r t f addr
    | _ => exact .ignored _ _ (.inl rfl)
  | onTurnAllocated addr =>
    cases state with
    | gatheringRelayed r t => exact .turnAllocated r t f addr
    | _ => exact .ignored _ _ (.inl rfl)
  -- Each of the two waits ends in a retry, in giving up or goes on.
  | tick =>
    cases state with
    | gatheringServerReflexive r t =>
      rcases t with - | t
      · rcases r with - | r
        · exact .stunGiveUp f
        · exact .stunRetry r f
      · exact .stunWait r t f
    | gatheringRelayed r t =>
      rcases t with - | t
      · rcases r with - | r
        · exact .turnGiveUp f
        · exact .turnRetry r f
      · exact .turnWait r t f
    | idle => exact .ignored _ _ (.inr (.inl rfl))
    | complete => exact .ignored _ _ (.inr (.inr rfl))

/-! ## A session, from one start to the next -/

/-- The server-reflexive candidates still to come. -/
def serverReflexiveLeft (g : IceCandidateGatherer) : ℕ :=
  match g.state with
  | .gatheringServerReflexive _ _ => 1
  | _ => 0

/-- The relayed candidates still to come, and the completions. -/
def relayedLeft (g : IceCandidateGatherer) : ℕ :=
  match g.state with
  | .gatheringServerReflexive _ _ => 1
  | .gatheringRelayed _ _ => 1
  | _ => 0

/-- The ticks after which gathering is over, if nothing is heard from the servers. -/
def ticksLeft (g : IceCandidateGatherer) : ℕ :=
  match g.state with
  | .gatheringServerReflexive r t =>
    r * (iceStunTimeoutTicks + 1) + (t + 1) + (iceTurnMaxRetries + 1) * (iceTurnTimeoutTicks + 1)
  | .gatheringRelayed r t => r * (iceTurnTimeoutTicks + 1) + (t + 1)
  | _ => 0

variable {g g' : IceCandidateGatherer} {e : IceInput Addr} {out : List (IceCandidateEvent Addr)}
  {es : List (IceInput Addr)}

/-- A step emits no more server-reflexive candidates than it takes from those left. -/
theorem Moves.serverReflexive_le (h : Moves g e out g') :
    out.countP (IceCandidateEvent.isOf .serverReflexive) + g'.serverReflexiveLeft ≤
      g.serverReflexiveLeft := by
  cases h with
  | stunGiveUp f => exact Nat.zero_le _
  | ignored => exact Nat.le_of_eq (Nat.zero_add _)
  | _ => exact Nat.le_refl _

/-- Nor more relayed ones. -/
theorem Moves.relayed_le (h : Moves g e out g') :
    out.countP (IceCandidateEvent.isOf .relayed) + g'.relayedLeft ≤ g.relayedLeft := by
  cases h with
  | turnGiveUp f => exact Nat.zero_le _
  | ignored => exact Nat.le_of_eq (Nat.zero_add _)
  | _ => exact Nat.le_refl _

/-- It completes the gathering at most once, when no relayed candidate is left after it. -/
theorem Moves.complete_le (h : Moves g e out g') :
    out.countP IceCandidateEvent.isComplete + g'.relayedLeft ≤ g.relayedLeft := by
  cases h with
  | ignored => exact Nat.le_of_eq (Nat.zero_add _)
  | _ => exact Nat.le_refl _

/-- Each tick takes one off the ticks that are left, and a response of a server takes off all that
were left for its answer. -/
theorem Moves.ticksLeft_le (h : Moves g e out g') : g'.ticksLeft ≤ g.ticksLeft - e.ticks := by
  cases h with
  | ignored _ _ h =>
    rcases h with h | h | h
    · rw [h]
      exact Nat.le_refl _
    · simp [ticksLeft, h]
    · simp [ticksLeft, h]
  | _ =>
    simp only [ticksLeft, waitForTurn, IceInput.ticks, iceTurnMaxRetries, iceTurnTimeoutTicks,
      iceStunTimeoutTicks]
    omega

/-- Gathering is over after a move exactly when the move completed it or it was over before. -/
theorem Moves.relayedLeft_eq_zero (h : Moves g e out g') (hg : g.relayedLeft ≠ 0)
    (hg' : g'.relayedLeft = 0) : .gatheringComplete ∈ out := by
  cases h with
  | turnAllocated r t f addr => exact List.mem_cons_of_mem _ (List.mem_singleton_self _)
  | turnGiveUp f => exact List.mem_singleton_self _
  | ignored => exact absurd hg' hg
  | _ => cases hg'

/-- A move that completes gathering does so with its last event, and leaves nothing to come. -/
theorem Moves.getLast?_of_complete (h : Moves g e out g') (hout : .gatheringComplete ∈ out) :
    out.getLast? = some .gatheringComplete ∧ g'.relayedLeft = 0 := by
  cases h with
  | turnAllocated r t f addr => exact ⟨rfl, rfl⟩
  | turnGiveUp f => exact ⟨rfl, rfl⟩
  | _ => simp at hout

/-- When gathering is over, or has not begun, calls other than `start` do nothing. -/
theorem Moves.silent (h : Moves g e out g') (hg : g.relayedLeft = 0) : out = [] ∧ g' = g := by
  cases h with
  | ignored => exact ⟨rfl, rfl⟩
  | _ => cases hg

/-- Without a start nothing is emitted once the relayed candidate is out. -/
theorem emitted_eq_nil (hg : g.relayedLeft = 0) (hes : ∀ e ∈ es, e.isStart = false) :
    step.emitted g es = [] := by
  induction es with
  | nil => rfl
  | cons e es ih =>
    obtain ⟨he, hes⟩ := List.forall_mem_cons.mp hes
    obtain ⟨hout, hnext⟩ := (moves_step g he).silent hg
    rw [Machine.emitted, hout, hnext, ih hes]
    rfl

/-- The completion is the last event. -/
theorem getLast?_emitted (hes : ∀ e ∈ es, e.isStart = false)
    (hmem : .gatheringComplete ∈ step.emitted g es) :
    (step.emitted g es).getLast? = some .gatheringComplete := by
  induction es generalizing g with
  | nil => cases hmem
  | cons e es ih =>
    obtain ⟨he, hes⟩ := List.forall_mem_cons.mp hes
    have hmove := moves_step g he
    rw [Machine.emitted] at hmem ⊢
    rcases List.mem_append.mp hmem with hmem | hmem
    · obtain ⟨hlast, hover⟩ := hmove.getLast?_of_complete hmem
      rw [emitted_eq_nil hover hes, List.append_nil, hlast]
    · rw [List.getLast?_append, ih hes hmem]
      rfl

/-- The ticks of some calls. -/
def ticksOf (es : List (IceInput Addr)) : ℕ := (es.map IceInput.ticks).sum

/-- Each tick takes one from the ticks that are left. -/
theorem ticksLeft_finish (hes : ∀ e ∈ es, e.isStart = false) :
    (step.finish g es).ticksLeft ≤ g.ticksLeft - ticksOf es := by
  induction es generalizing g with
  | nil => exact Nat.le_refl _
  | cons e es ih =>
    obtain ⟨he, hes⟩ := List.forall_mem_cons.mp hes
    have hfirst := (moves_step g he).ticksLeft_le
    have hrest := ih hes (g := (step g e).2)
    show (step.finish (step g e).2 es).ticksLeft ≤ g.ticksLeft - (e.ticks + ticksOf es)
    omega

/-- Gathering that is over at the end was completed on the way. -/
theorem complete_mem_emitted (hes : ∀ e ∈ es, e.isStart = false) (hg : g.relayedLeft ≠ 0)
    (hover : (step.finish g es).relayedLeft = 0) : .gatheringComplete ∈ step.emitted g es := by
  induction es generalizing g with
  | nil => exact absurd hover hg
  | cons e es ih =>
    obtain ⟨he, hes⟩ := List.forall_mem_cons.mp hes
    rw [Machine.emitted]
    by_cases hnext : (step g e).2.relayedLeft = 0
    · exact List.mem_append_left _ ((moves_step g he).relayedLeft_eq_zero hg hnext)
    · exact List.mem_append_right _ (ih hes hnext hover)

/-- When no tick is left, no relayed candidate is. -/
theorem relayedLeft_of_ticksLeft (h : g.ticksLeft = 0) : g.relayedLeft = 0 := by
  obtain ⟨state, f⟩ := g
  cases state with
  | idle => rfl
  | complete => rfl
  | gatheringServerReflexive r t => simp [ticksLeft] at h
  | gatheringRelayed r t => simp [ticksLeft] at h

/-! ## A start -/

/-- The host candidates of a start. -/
def hostCandidates (f : UInt32) (hostAddrs : List Addr) : List (IceCandidate Addr) :=
  hostAddrs.mapIdx fun k addr =>
    .host addr (saturatingSubU32 iceLocalPreferenceBase (.ofNat k)) (f + .ofNat k)

/-- The loop gives a candidate for each address, with the foundations from the next one on. -/
theorem startLoop_eq (i : ℕ) (f : UInt32) (hostAddrs : List Addr) :
    startLoop i f hostAddrs =
      (hostAddrs.mapIdx fun k addr => .candidateReady
        (.host addr (saturatingSubU32 iceLocalPreferenceBase (.ofNat (i + k))) (f + .ofNat k)),
        f + .ofNat hostAddrs.length) := by
  induction hostAddrs generalizing i f with
  | nil => simp [startLoop]
  | cons addr hostAddrs ih =>
    have hassoc : ∀ k : ℕ, f + 1 + UInt32.ofNat k = f + UInt32.ofNat (k + 1) := by
      intro k
      rw [UInt32.add_assoc, Nat.add_comm k 1, UInt32.ofNat_add]
      rfl
    have hindex : ∀ k : ℕ, i + 1 + k = i + (k + 1) := by
      intro k
      omega
    simp [startLoop, ih, List.mapIdx_cons, hassoc, hindex]

/-- What a start does. -/
theorem step_start (g : IceCandidateGatherer) (hostAddrs : List Addr) :
    step g (.start hostAddrs) =
      ((hostCandidates g.nextFoundation hostAddrs).map .candidateReady ++ [.sendStunRequest],
        ⟨waitForStun, g.nextFoundation + .ofNat hostAddrs.length⟩) := by
  have hevents : hostAddrs.mapIdx (fun k addr => IceCandidateEvent.candidateReady
      (.host addr (saturatingSubU32 iceLocalPreferenceBase (.ofNat (0 + k)))
        (g.nextFoundation + .ofNat k)))
        = (hostCandidates g.nextFoundation hostAddrs).map .candidateReady := by
    rw [hostCandidates, List.mapIdx_eq_zipIdx_map, List.mapIdx_eq_zipIdx_map, List.map_map]
    simp only [Nat.zero_add]
    rfl
  show g.start hostAddrs = _
  unfold start
  rw [startLoop_eq, hevents]

/-- The candidates of a start. -/
theorem candidates_start (g : IceCandidateGatherer) (hostAddrs : List Addr) :
    candidates (step g (.start hostAddrs)).1 = hostCandidates g.nextFoundation hostAddrs := by
  rw [step_start, candidates, List.filterMap_append, List.filterMap_map]
  have hsome : IceCandidateEvent.candidate? ∘ IceCandidateEvent.candidateReady
      = (some : IceCandidate Addr → Option (IceCandidate Addr)) := rfl
  rw [hsome, List.filterMap_some]
  exact List.append_nil _

/-- A start gives neither candidates of the other classes nor a completion. -/
theorem countP_start (g : IceCandidateGatherer) (hostAddrs : List Addr)
    {p : IceCandidateEvent Addr → Bool}
    (hhost : ∀ addr localPref f, p (.candidateReady (.host addr localPref f)) = false)
    (hrequest : p .sendStunRequest = false) :
    (step g (.start hostAddrs)).1.countP p = 0 := by
  rw [step_start, List.countP_eq_zero]
  intro event hevent
  rcases List.mem_append.mp hevent with hevent | hevent
  · obtain ⟨candidate, hcandidate, rfl⟩ := List.mem_map.mp hevent
    obtain ⟨k, hk, rfl⟩ := List.mem_mapIdx.mp hcandidate
    rw [hhost]
    exact Bool.false_ne_true
  · rw [List.mem_singleton.mp hevent, hrequest]
    exact Bool.false_ne_true

/-! ## Foundations -/

/-- The foundations of the candidates are those from `f` on, one after another. -/
def Numbered (f : UInt32) (cs : List (IceCandidate Addr)) : Prop :=
  cs.map IceCandidate.foundation = (List.range cs.length).map fun k => f + .ofNat k

/-- Candidates numbered one after the other. -/
theorem Numbered.append {f : UInt32} {cs ds : List (IceCandidate Addr)} (hc : Numbered f cs)
    (hd : Numbered (f + .ofNat cs.length) ds) : Numbered f (cs ++ ds) := by
  unfold Numbered at hc hd ⊢
  rw [List.map_append, hc, hd, List.length_append, List.range_add, List.map_append, List.map_map]
  congr 1
  apply List.map_congr_left
  intro k _
  show f + .ofNat cs.length + .ofNat k = f + UInt32.ofNat (cs.length + k)
  rw [UInt32.ofNat_add, UInt32.add_assoc]

/-- Fewer than `2^32` of them are distinct. -/
theorem Numbered.nodup {f : UInt32} {cs : List (IceCandidate Addr)} (h : Numbered f cs)
    (hlen : cs.length < 2 ^ 32) : (cs.map IceCandidate.foundation).Nodup := by
  unfold Numbered at h
  rw [h]
  refine List.Nodup.map_on ?_ List.nodup_range
  intro a ha b hb hab
  have ha : a < 2 ^ 32 := Nat.lt_trans (List.mem_range.mp ha) hlen
  have hb : b < 2 ^ 32 := Nat.lt_trans (List.mem_range.mp hb) hlen
  have heq := congrArg UInt32.toNat ((UInt32.add_right_inj f).mp hab)
  rwa [UInt32.toNat_ofNat', UInt32.toNat_ofNat', Nat.mod_eq_of_lt ha, Nat.mod_eq_of_lt hb] at heq

/-- The host candidates are numbered from the first foundation on. -/
theorem numbered_hostCandidates (f : UInt32) (hostAddrs : List Addr) :
    Numbered f (hostCandidates f hostAddrs) := by
  unfold Numbered hostCandidates
  rw [List.length_mapIdx]
  apply List.ext_getElem?
  intro k
  rw [List.getElem?_map, List.getElem?_map, List.getElem?_mapIdx]
  rcases Nat.lt_or_ge k hostAddrs.length with hk | hk
  · rw [List.getElem?_eq_getElem hk, List.getElem?_range hk]
    rfl
  · rw [List.getElem?_eq_none hk, List.getElem?_eq_none (by rwa [List.length_range])]
    rfl

/-- A move gives at most one candidate, with the gatherer's next foundation. -/
theorem Moves.candidates_eq (h : Moves g e out g') :
    candidates out = [] ∧ g'.nextFoundation = g.nextFoundation ∨
      ∃ addr c, (c = .serverReflexive addr g.nextFoundation ∨ c = .relayed addr g.nextFoundation) ∧
        candidates out = [c] ∧ g'.nextFoundation = g.nextFoundation + 1 := by
  cases h with
  | stunResponse r t f addr => exact .inr ⟨addr, _, .inl rfl, rfl, rfl⟩
  | turnAllocated r t f addr => exact .inr ⟨addr, _, .inr rfl, rfl, rfl⟩
  | _ => exact .inl ⟨rfl, rfl⟩

/-- A start has the host addresses. -/
theorem isStart_eq_true (h : e.isStart = true) : ∃ hostAddrs, e = .start hostAddrs := by
  cases e with
  | start hostAddrs => exact ⟨hostAddrs, rfl⟩
  | _ => cases h

/-- A call numbers its candidates on from the gatherer's next foundation. -/
theorem numbered_step (g : IceCandidateGatherer) (e : IceInput Addr) :
    Numbered g.nextFoundation (candidates (step g e).1) ∧
      (step g e).2.nextFoundation = g.nextFoundation + .ofNat (candidates (step g e).1).length := by
  cases he : e.isStart with
  -- A start numbers its host candidates in order.
  | true =>
    obtain ⟨hostAddrs, rfl⟩ := isStart_eq_true he
    rw [candidates_start]
    refine ⟨numbered_hostCandidates _ _, ?_⟩
    rw [step_start, hostCandidates, List.length_mapIdx]
  -- Any other step makes at most one candidate, which takes the next number.
  | false =>
    rcases (moves_step g he).candidates_eq with ⟨hout, hnext⟩ | ⟨addr, c, hc, hout, hnext⟩
    · rw [hout, hnext]
      exact ⟨rfl, (UInt32.add_zero _).symm⟩
    · have hfoundation : c.foundation = g.nextFoundation := by
        rcases hc with rfl | rfl <;> rfl
      rw [hout, hnext]
      refine ⟨?_, rfl⟩
      unfold Numbered
      rw [List.map_singleton, hfoundation]
      exact congrArg (fun f => [f]) (UInt32.add_zero _).symm

/-- So does a run. -/
theorem numbered_emitted (g : IceCandidateGatherer) (es : List (IceInput Addr)) :
    Numbered g.nextFoundation (candidates (step.emitted g es)) := by
  induction es generalizing g with
  | nil => rfl
  | cons e es ih =>
    obtain ⟨hfirst, hnext⟩ := numbered_step g e
    have hrest := ih (step g e).2
    rw [hnext] at hrest
    rw [Machine.emitted, candidates, List.filterMap_append]
    exact hfirst.append hrest

/-! ## Priorities -/

/-- The priority is in the range of its class. -/
def Ranked (c : IceCandidate Addr) : Prop :=
  match c.candidateType with
  | .host => 2 ^ 24 * 126 ≤ c.priority.toNat
  | .serverReflexive => 2 ^ 24 * 100 ≤ c.priority.toNat ∧ c.priority.toNat < 2 ^ 24 * 126
  | .relayed => c.priority.toNat < 2 ^ 24 * 100

/-- The priority of a host candidate. -/
theorem toNat_hostPriority (addr : Addr) (k f : UInt32) :
    (IceCandidate.host addr (saturatingSubU32 iceLocalPreferenceBase k) f).priority.toNat
      = 2 ^ 24 * 126 + 2 ^ 8 * (65535 - k.toNat) + 255 := by
  have hbase : iceLocalPreferenceBase.toNat = 65535 := rfl
  have hlocal := toNat_saturatingSubU32 iceLocalPreferenceBase k
  rw [hbase] at hlocal
  show (icePriority iceHostTypePreference _).toNat = _
  rw [toNat_icePriority (by decide) (by omega), hlocal]
  rfl

/-- All candidates of a call are in the range of their class. -/
theorem ranked_step (g : IceCandidateGatherer) (e : IceInput Addr) :
    ∀ c ∈ candidates (step g e).1, Ranked c := by
  cases he : e.isStart with
  | true =>
    obtain ⟨hostAddrs, rfl⟩ := isStart_eq_true he
    rw [candidates_start]
    intro c hc
    obtain ⟨k, hk, rfl⟩ := List.mem_mapIdx.mp hc
    show _ ≤ (IceCandidate.host _ _ _).priority.toNat
    rw [toNat_hostPriority]
    omega
  | false =>
    rcases (moves_step g he).candidates_eq with ⟨hout, -⟩ | ⟨addr, c, hc, hout, -⟩
    · rw [hout]
      exact List.forall_mem_nil _
    · rw [hout]
      refine List.forall_mem_singleton.mpr ?_
      -- A reflexive or a relayed candidate, whose priorities are constants.
      rcases hc with rfl | rfl
      · show _ ≤ (icePriority iceSrflxTypePreference iceLocalPreferenceBase).toNat ∧
          (icePriority iceSrflxTypePreference iceLocalPreferenceBase).toNat < _
        decide
      · show (icePriority iceRelayTypePreference iceLocalPreferenceBase).toNat < _
        decide

/-- So are those of a run. -/
theorem ranked_emitted (g : IceCandidateGatherer) (es : List (IceInput Addr)) :
    ∀ c ∈ candidates (step.emitted g es), Ranked c := by
  induction es generalizing g with
  | nil => exact List.forall_mem_nil _
  | cons e es ih =>
    rw [Machine.emitted, candidates, List.filterMap_append]
    exact List.forall_mem_append.mpr ⟨ranked_step g e, ih _⟩

/-- The priorities of the host candidates do not increase. -/
theorem pairwise_hostCandidates (f : UInt32) {hostAddrs : List Addr}
    (hlen : hostAddrs.length < 2 ^ 32) :
    (hostCandidates f hostAddrs).Pairwise fun c d => d.priority ≤ c.priority := by
  rw [List.pairwise_iff_getElem]
  intro i j hi hj hij
  have hj' : j < 2 ^ 32 := by
    rw [hostCandidates, List.length_mapIdx] at hj
    omega
  have hi' : i < 2 ^ 32 := Nat.lt_trans hij hj'
  simp only [hostCandidates, List.getElem_mapIdx, UInt32.le_iff_toNat_le, toNat_hostPriority,
    UInt32.toNat_ofNat', Nat.mod_eq_of_lt hi', Nat.mod_eq_of_lt hj']
  omega

/-! ## The protocol -/

/-- The ticks after which gathering is over at the latest. -/
def maxGatheringTicks : ℕ :=
  (iceStunMaxRetries + 1) * (iceStunTimeoutTicks + 1)
    + (iceTurnMaxRetries + 1) * (iceTurnTimeoutTicks + 1)

/-- What is emitted from a start on, and before the next, in some number of ticks. -/
structure Session (out : List (IceCandidateEvent Addr)) (ticks : ℕ) : Prop where
  /-- There is at most one server-reflexive candidate. -/
  serverReflexive_le : out.countP (IceCandidateEvent.isOf .serverReflexive) ≤ 1
  /-- There is at most one relayed candidate. -/
  relayed_le : out.countP (IceCandidateEvent.isOf .relayed) ≤ 1
  /-- Gathering is completed at most once. -/
  complete_le : out.countP IceCandidateEvent.isComplete ≤ 1
  /-- The completion is the last event. -/
  complete_last : .gatheringComplete ∈ out → out.getLast? = some .gatheringComplete
  /-- Gathering is completed in time. -/
  complete_mem : maxGatheringTicks ≤ ticks → .gatheringComplete ∈ out

/-- A session has no more events of a kind than there are in stock after its start. -/
theorem countP_session (g : IceCandidateGatherer) (hostAddrs : List Addr)
    {p : IceCandidateEvent Addr → Bool} {stock : IceCandidateGatherer → ℕ}
    (hhost : ∀ addr localPref f, p (.candidateReady (.host addr localPref f)) = false)
    (hrequest : p .sendStunRequest = false)
    (hmove : ∀ e ∈ es, ∀ g, (step g e).1.countP p + stock (step g e).2 ≤ stock g) :
    (step.emitted g (.start hostAddrs :: es)).countP p
      ≤ stock (step g (.start hostAddrs)).2 := by
  have hstock := Machine.countP_emitted_le p stock hmove (s := (step g (.start hostAddrs)).2)
  rw [Machine.emitted, List.countP_append, countP_start g hostAddrs hhost hrequest]
  omega

/-- What calls other than `start` emit after a start. -/
theorem session_start (g : IceCandidateGatherer) (hostAddrs : List Addr)
    (hes : ∀ e ∈ es, e.isStart = false) :
    Session (step.emitted g (.start hostAddrs :: es)) (ticksOf es) := by
  have hnext : (step g (.start hostAddrs)).2.state = waitForStun := by rw [step_start]
  have hleft : (step g (.start hostAddrs)).2.relayedLeft = 1 := by
    unfold relayedLeft
    rw [hnext]
    rfl
  have hcomplete : IceCandidateEvent.gatheringComplete ∉ (step g (.start hostAddrs)).1 := by
    intro hmem
    have hzero := countP_start g hostAddrs (p := IceCandidateEvent.isComplete)
      (fun _ _ _ => rfl) rfl
    exact List.countP_eq_zero.mp hzero _ hmem rfl
  -- Each event is counted against what is left of it in the state the start leaves.
  refine ⟨?_, ?_, ?_, ?_, ?_⟩
  · have hone : (step g (.start hostAddrs)).2.serverReflexiveLeft = 1 := by
      unfold serverReflexiveLeft
      rw [hnext]
      rfl
    rw [← hone]
    exact countP_session g hostAddrs (fun _ _ _ => rfl) rfl
      fun e he g => (moves_step g (hes e he)).serverReflexive_le
  · rw [← hleft]
    exact countP_session g hostAddrs (fun _ _ _ => rfl) rfl
      fun e he g => (moves_step g (hes e he)).relayed_le
  · rw [← hleft]
    exact countP_session g hostAddrs (fun _ _ _ => rfl) rfl
      fun e he g => (moves_step g (hes e he)).complete_le
  · intro hmem
    rw [Machine.emitted] at hmem ⊢
    have hrest := (List.mem_append.mp hmem).resolve_left hcomplete
    rw [List.getLast?_append, getLast?_emitted hes hrest]
    rfl
  -- By then no time is left, so the last event has been sent.
  · intro hticks
    have hall : (step g (.start hostAddrs)).2.ticksLeft = maxGatheringTicks := by
      unfold ticksLeft
      rw [hnext]
      rfl
    have hover := ticksLeft_finish hes (g := (step g (.start hostAddrs)).2)
    rw [hall, Nat.sub_eq_zero_of_le hticks, Nat.le_zero] at hover
    refine List.mem_append_right _ (complete_mem_emitted hes ?_ (relayedLeft_of_ticksLeft hover))
    rw [hleft]
    exact Nat.one_ne_zero

/-- What the gatherer promises for a sequence of calls. -/
structure GathersWell (es : List (IceInput Addr)) : Prop where
  /-- All foundations are distinct. -/
  foundations : ((candidates (step.emitted new es)).map IceCandidate.foundation).Nodup
  /-- Host candidates are above server-reflexive ones. -/
  serverReflexive_lt_host : ∀ c ∈ candidates (step.emitted new es),
    ∀ d ∈ candidates (step.emitted new es),
      c.candidateType = .serverReflexive → d.candidateType = .host → c.priority < d.priority
  /-- Server-reflexive candidates are above relayed ones. -/
  relayed_lt_serverReflexive : ∀ c ∈ candidates (step.emitted new es),
    ∀ d ∈ candidates (step.emitted new es),
      c.candidateType = .relayed → d.candidateType = .serverReflexive → c.priority < d.priority
  /-- A start gives a host candidate for each address, with priorities that do not increase. -/
  hosts : ∀ pre hostAddrs, pre ++ [.start hostAddrs] <+: es →
    ∃ cs, candidates (step (step.finish new pre) (.start hostAddrs)).1 = cs ∧
      cs.map IceCandidate.addr = hostAddrs ∧ (∀ c ∈ cs, c.candidateType = .host) ∧
      cs.Pairwise fun c d => d.priority ≤ c.priority
  /-- Nothing is emitted before the first start. -/
  idle : ∀ pre, pre <+: es → (∀ e ∈ pre, e.isStart = false) → step.emitted new pre = []
  /-- From one start to the next, there is a session. -/
  session : ∀ pre hostAddrs mid, pre ++ .start hostAddrs :: mid <+: es →
    (∀ e ∈ mid, e.isStart = false) →
      Session (step.emitted (step.finish new pre) (.start hostAddrs :: mid)) (ticksOf mid)

/-- The gatherer keeps its promises in every sequence of calls with fewer than `2^32`
candidates. -/
theorem gathers_well (es : List (IceInput Addr))
    (hlen : (candidates (step.emitted new es)).length < 2 ^ 32) : GathersWell es := by
  have hranked := ranked_emitted new es
  -- The numbers are consecutive and do not wrap, so they differ.
  refine ⟨(numbered_emitted new es).nodup hlen, ?_, ?_, ?_, ?_, ?_⟩
  · intro c hc d hd hctype hdtype
    have hlow := hranked c hc
    have hhigh := hranked d hd
    unfold Ranked at hlow hhigh
    rw [hctype] at hlow
    rw [hdtype] at hhigh
    exact UInt32.lt_iff_toNat_lt.mpr (Nat.lt_of_lt_of_le hlow.2 hhigh)
  · intro c hc d hd hctype hdtype
    have hlow := hranked c hc
    have hhigh := hranked d hd
    unfold Ranked at hlow hhigh
    rw [hctype] at hlow
    rw [hdtype] at hhigh
    exact UInt32.lt_iff_toNat_lt.mpr (Nat.lt_of_lt_of_le hlow hhigh.1)
  · rintro pre hostAddrs ⟨post, rfl⟩
    refine ⟨_, candidates_start _ _, ?_, ?_, pairwise_hostCandidates _ ?_⟩
    · rw [hostCandidates, List.mapIdx_eq_zipIdx_map, List.map_map]
      exact List.zipIdx_map_fst 0 hostAddrs
    · intro c hc
      obtain ⟨k, hk, rfl⟩ := List.mem_mapIdx.mp hc
      rfl
    · -- The candidates of this start are among those of the run.
      rw [Machine.emitted_append, Machine.emitted_append, candidates, List.filterMap_append,
        List.filterMap_append, List.length_append, List.length_append] at hlen
      have hstart := candidates_start (step.finish new pre) hostAddrs
      have hsize := congrArg List.length hstart
      rw [hostCandidates, List.length_mapIdx] at hsize
      rw [Machine.emitted, Machine.emitted, List.append_nil] at hlen
      unfold candidates at hsize
      omega
  · intro pre _ hpre
    exact emitted_eq_nil rfl hpre
  · intro pre hostAddrs mid _ hmid
    exact session_start _ hostAddrs hmid

/-- An early answer of the TURN server, a start, both answers, and a start again. -/
theorem gathers_well_restart :
    GathersWell [.onTurnAllocated 9, .start [1, 2], .tick, .onStunResponse 7, .onTurnAllocated 9,
      .onStunResponse 8, .start [1]] :=
  gathers_well _ (by decide)

end IceCandidateGatherer

end LowBand.Lbtp
