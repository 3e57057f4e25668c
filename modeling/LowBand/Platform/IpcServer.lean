import LowBand.Lib.Run
import LowBand.Platform.IpcWire

/-!
# The daemon's broadcasts

`IpcServer::broadcast`, the accept loop and `write_loop` of `core/platform/src/ipc.rs`. Each shell
that connects gets a queue of 32 frames and a thread that writes them to its socket. A broadcast
offers its frame to all queues without waiting: a full queue leaves the frame out, and a shell whose
writer has stopped is taken off the list. The threads run as they like, and a socket takes the bytes
of a frame in as many pieces as it likes or fails in the middle of one.

A shell does not see the others: what becomes of it is a run of its own, on the broadcasts since it
connected and the steps of its writer (`getElem?_run`). Whatever the order of all these steps, the
events that the shell has read are broadcasts since it connected, in their order and without
repetition; and when its queue had room at each of them and its writer has caught up, they are all
of them (`broadcast_delivers`).
-/

namespace LowBand.Platform

open Lib
open scoped List

/-- The length of a client's queue. -/
def queueLen : ℕ := 32

/-- What the writer of a client does. -/
inductive Writer
  /-- It waits for a frame. -/
  | idle
  /-- It writes a frame, of which the rest is not yet in the socket. -/
  | writing (rest : List UInt8)
  /-- The socket has failed. -/
  | stopped
  deriving DecidableEq

/-- A connected shell. -/
structure Client where
  /-- Its sender is in the list of clients. -/
  registered : Bool
  /-- The queue of frames. -/
  queue : List (List UInt8)
  /-- Its writer. -/
  writer : Writer
  /-- What the socket has taken. -/
  written : List UInt8
  deriving DecidableEq

/-- A step of a writer. -/
inductive WriterStep
  /-- It takes a frame from the queue. -/
  | next
  /-- The socket takes some bytes. -/
  | wrote (n : ℕ)
  /-- The socket fails. -/
  | failed

namespace Client

/-- A shell that has just connected. -/
def connected : Client := ⟨true, [], .idle, []⟩

/-- The queue takes a frame that is offered now. -/
def HasRoom (c : Client) : Prop :=
  c.registered = true ∧ c.writer ≠ .stopped ∧ c.queue.length < queueLen

/-- Whether a queue has room can be decided. -/
instance (c : Client) : Decidable c.HasRoom := inferInstanceAs (Decidable (_ ∧ _ ∧ _))

/-- What `retain` does with a client: a full queue is left as it is, a stopped writer is the end of
the client. -/
def trySend (c : Client) (frame : List UInt8) : Client :=
  if c.HasRoom then { c with queue := c.queue ++ [frame] }
  else if c.writer = .stopped then { c with registered := false }
  else c

/-- `write_loop`, one step. -/
def write (c : Client) : WriterStep → Client
  | .next =>
    match c.writer, c.queue with
    | .idle, frame :: queue => { c with writer := .writing frame, queue }
    | _, _ => c
  | .wrote n =>
    match c.writer with
    | .writing rest =>
      { c with
        written := c.written ++ rest.take n
        writer := if rest.drop n = [] then .idle else .writing (rest.drop n) }
    | _ => c
  | .failed =>
    match c.writer with
    -- The receiver is dropped, and the queue with it.
    | .writing _ => { c with writer := .stopped, queue := [] }
    | _ => c

end Client

/-- What happens at a server. -/
inductive ServerEvent
  /-- A shell connects. -/
  | connect
  /-- The daemon broadcasts an event. -/
  | broadcast (event : IpcEvent)
  /-- The writer of a client takes a step. -/
  | writer (client : ℕ) (step : WriterStep)

section

variable (fbb : TableBuilder)

/-- One step of the server. The clients stand in the order in which they connected. -/
def serverStep (s : List Client) : ServerEvent → List Client
  | .connect => s ++ [.connected]
  | .broadcast event => s.map (·.trySend (encodeEvent fbb event))
  | .writer i step => s.modify i (·.write step)

/-- What concerns one client. -/
inductive ClientInput
  /-- An event is broadcast. -/
  | offer (event : IpcEvent)
  /-- Its writer takes a step. -/
  | write (step : WriterStep)

/-- One client. It outputs the events whose frames its queue takes. -/
def clientStep : Machine Client ClientInput IpcEvent
  | c, .offer event => (if c.HasRoom then [event] else [], c.trySend (encodeEvent fbb event))
  | c, .write step => ([], c.write step)

/-! ## Each client by itself -/

/-- What concerns client `i`, of an event. -/
def inputsOf (i : ℕ) : ServerEvent → List ClientInput
  | .connect => []
  | .broadcast event => [.offer event]
  | .writer j step => if j = i then [.write step] else []

/-- What happens after `k + 1` more shells have connected. -/
def afterConnect : ℕ → List ServerEvent → Option (List ServerEvent)
  | _, [] => none
  | 0, .connect :: es => some es
  | k + 1, .connect :: es => afterConnect k es
  | k, .broadcast _ :: es => afterConnect k es
  | k, .writer _ _ :: es => afterConnect k es

/-- The events broadcast in a run. -/
def broadcasts (es : List ServerEvent) : List IpcEvent :=
  es.filterMap fun
    | .broadcast event => some event
    | _ => none

/-- The queue of client `i` has room when an event is broadcast. -/
def RoomFor (i : ℕ) (s : List Client) : ServerEvent → Prop
  | .broadcast _ => ∀ c, s[i]? = some c → c.HasRoom
  | _ => True

/-- Whether there is room at an event can be decided: only a broadcast needs it. -/
instance (i : ℕ) (s : List Client) : (e : ServerEvent) → Decidable (RoomFor i s e)
  | .broadcast _ => inferInstanceAs (Decidable (∀ c ∈ s[i]?, c.HasRoom))
  | .connect => isTrue trivial
  | .writer _ _ => isTrue trivial

/-- The queue of a client has room for what is offered. -/
def TakesOffer (c : Client) : ClientInput → Prop
  | .offer _ => c.HasRoom
  | .write _ => True

variable {fbb} {s : List Client} {i : ℕ}

/-- A step of the server is, for a client that is there, what concerns it. -/
theorem getElem?_serverStep {c : Client} (hc : s[i]? = some c) (e : ServerEvent) :
    (serverStep fbb s e)[i]? = some ((clientStep fbb).finish c (inputsOf i e)) := by
  cases e with
  | connect =>
    have hi : i < s.length := (List.getElem?_eq_some_iff.mp hc).1
    show (s ++ [Client.connected])[i]? = some c
    rw [List.getElem?_append_left hi, hc]
  | broadcast event =>
    show (s.map _)[i]? = _
    rw [List.getElem?_map, hc]
    rfl
  | writer j step =>
    show (s.modify j _)[i]? = _
    rw [List.getElem?_modify, hc]
    by_cases hj : j = i <;> simp [inputsOf, hj, Machine.finish, clientStep]

/-- A client that is there goes its own way, and if its queue has room for all that the server
broadcasts, it takes all that it is offered. -/
theorem getElem?_run {c : Client} (hc : s[i]? = some c) (es : List ServerEvent) :
    (run (serverStep fbb) s es)[i]? = some ((clientStep fbb).finish c (es.flatMap (inputsOf i))) ∧
      (Guarded (serverStep fbb) (RoomFor i) s es →
        Guarded (fun c e => (clientStep fbb c e).2) TakesOffer c (es.flatMap (inputsOf i))) := by
  induction es generalizing s c with
  | nil => exact ⟨hc, fun _ => trivial⟩
  | cons e es ih =>
    obtain ⟨hlast, hroom⟩ := ih (getElem?_serverStep hc e)
    rw [List.flatMap_cons, Machine.finish_append]
    refine ⟨hlast, ?_⟩
    rintro ⟨he, hes⟩
    refine (guarded_append _).mpr ⟨?_, hroom hes⟩
    cases e with
    | connect => trivial
    | broadcast event => exact ⟨he c hc, trivial⟩
    | writer j step =>
      by_cases hj : j = i <;> simp [inputsOf, hj, Guarded, TakesOffer]

/-- A client that connects later goes its own way from then on. -/
theorem getElem?_run_of_le {c : Client} (hi : s.length ≤ i) {es : List ServerEvent}
    (hc : (run (serverStep fbb) s es)[i]? = some c) :
    ∃ since, afterConnect (i - s.length) es = some since ∧
      c = (clientStep fbb).finish .connected (since.flatMap (inputsOf i)) ∧
      (Guarded (serverStep fbb) (RoomFor i) s es →
        Guarded (fun c e => (clientStep fbb c e).2) TakesOffer .connected
          (since.flatMap (inputsOf i))) := by
  -- By induction on the events: the `i`-th client comes with one of the connects.
  induction es generalizing s with
  | nil =>
    rw [run_nil, List.getElem?_eq_none hi] at hc
    cases hc
  | cons e es ih =>
    rw [run_cons] at hc
    cases e with
    | connect =>
      have hlen : (serverStep fbb s .connect).length = s.length + 1 := List.length_append
      -- This connect brings the client, or an earlier one.
      rcases hi.eq_or_lt with heq | hlt
      · have hnew : (serverStep fbb s .connect)[i]? = some Client.connected := by
          rw [← heq]
          exact List.getElem?_concat_length
        obtain ⟨hlast, hroom⟩ := getElem?_run hnew es
        refine ⟨es, ?_, Option.some.inj (hc.symm.trans hlast), fun h => hroom h.2⟩
        rw [heq, Nat.sub_self]
        rfl
      · obtain ⟨since, hsince, hrest⟩ := ih (by omega) hc
        refine ⟨since, ?_, hrest.1, fun h => hrest.2 h.2⟩
        obtain ⟨k, hk⟩ := Nat.exists_eq_add_of_lt hlt
        rw [hlen] at hsince
        rw [show i - s.length = (i - (s.length + 1)) + 1 by omega]
        exact hsince
    | broadcast event =>
      have hlen : (serverStep fbb s (.broadcast event)).length = s.length := List.length_map _
      obtain ⟨since, hsince, hrest⟩ := ih (by omega) hc
      rw [hlen] at hsince
      refine ⟨since, ?_, hrest.1, fun h => hrest.2 h.2⟩
      cases hk : i - s.length <;> rw [hk] at hsince <;> exact hsince
    | writer j step =>
      have hlen : (serverStep fbb s (.writer j step)).length = s.length := List.length_modify ..
      obtain ⟨since, hsince, hrest⟩ := ih (by omega) hc
      rw [hlen] at hsince
      refine ⟨since, ?_, hrest.1, fun h => hrest.2 h.2⟩
      cases hk : i - s.length <;> rw [hk] at hsince <;> exact hsince

/-! ## One client -/

/-- The events that a client is offered. -/
def offers (ins : List ClientInput) : List IpcEvent :=
  ins.filterMap fun
    | .offer event => some event
    | .write _ => none

/-- What a client has been offered since it connected is what was broadcast. -/
theorem offers_inputsOf (i : ℕ) (es : List ServerEvent) :
    offers (es.flatMap (inputsOf i)) = broadcasts es := by
  induction es with
  | nil => rfl
  | cons e es ih =>
    unfold offers at ih
    rw [List.flatMap_cons, offers, List.filterMap_append, ih]
    cases e with
    | connect => rfl
    | broadcast event => rfl
    | writer j step =>
      by_cases hj : j = i <;> simp [inputsOf, hj, broadcasts]

/-- The frames of these events are in the socket, with the writer or in the queue, in order. -/
def Carries (fbb : TableBuilder) (c : Client) (taken : List IpcEvent) : Prop :=
  match c.writer with
  | .idle => c.written ++ c.queue.flatten = taken.flatMap (encodeEvent fbb)
  | .writing rest => c.written ++ rest ++ c.queue.flatten = taken.flatMap (encodeEvent fbb)
  | .stopped => c.written <+: taken.flatMap (encodeEvent fbb)

/-- What is in the socket begins the frames that the queue took. -/
theorem Carries.written_prefix {c : Client} {taken : List IpcEvent} (h : Carries fbb c taken) :
    c.written <+: taken.flatMap (encodeEvent fbb) := by
  unfold Carries at h
  split at h
  · exact ⟨_, h⟩
  · exact ⟨_, by rw [← h, List.append_assoc]⟩
  · exact h

/-- A step of a client carries on with what its queue takes. -/
theorem carries_clientStep {c : Client} {taken : List IpcEvent} (h : Carries fbb c taken)
    (input : ClientInput) :
    Carries fbb (clientStep fbb c input).2 (taken ++ (clientStep fbb c input).1) := by
  cases input with
  | offer event =>
    unfold clientStep Client.trySend
    dsimp only
    -- The event is queued behind what is there.
    by_cases hroom : c.HasRoom
    · rw [if_pos hroom, if_pos hroom]
      unfold Carries at h ⊢
      rw [List.flatMap_append, List.flatMap_singleton]
      dsimp only
      rw [List.flatten_append, List.flatten_singleton]
      cases hw : c.writer with
      | idle =>
        rw [hw] at h
        rw [← List.append_assoc, h]
      | writing rest =>
        rw [hw] at h
        dsimp only at h ⊢
        rw [← List.append_assoc, h]
      | stopped => exact absurd hw hroom.2.1
    · -- Nothing is taken, whether the client is kept or taken off the list.
      rw [if_neg hroom, if_neg hroom, List.append_nil]
      split
      · exact h
      · exact h
  | write step =>
    show Carries fbb (c.write step) (taken ++ [])
    rw [List.append_nil]
    cases step with
    -- The front of the queue becomes what is being written.
    | next =>
      unfold Client.write
      dsimp only
      split
      · rename_i frame queue hw hq
        unfold Carries at h ⊢
        rw [hw, hq, List.flatten_cons] at h
        dsimp only at h ⊢
        rw [List.append_assoc]
        exact h
      · exact h
    -- The bytes move from what is left to what has been written.
    | wrote n =>
      unfold Client.write
      dsimp only
      split
      · rename_i rest hw
        unfold Carries at h ⊢
        rw [hw] at h
        dsimp only at h ⊢
        have hrest : rest.take n ++ rest.drop n = rest := List.take_append_drop n rest
        by_cases hdone : rest.drop n = []
        · rw [if_pos hdone]
          rw [hdone, List.append_nil] at hrest
          rw [hrest]
          exact h
        · rw [if_neg hdone]
          dsimp only
          rw [List.append_assoc c.written, hrest]
          exact h
      · exact h
    | failed =>
      unfold Client.write
      dsimp only
      split
      · exact h.written_prefix
      · exact h

/-- The queue takes what it is offered, or nothing. -/
theorem clientStep_sublist (c : Client) (input : ClientInput) :
    (clientStep fbb c input).1 <+ offers [input] := by
  cases input with
  | offer event =>
    show (if c.HasRoom then [event] else []) <+ [event]
    split
    · exact List.Sublist.refl [event]
    · exact List.nil_sublist [event]
  | write step => exact List.Sublist.refl []

/-- In a run of a client: its socket, its writer and its queue carry what the queue took, and this
is some of what it was offered, in order; it is all of it when there was room each time. -/
theorem carries_run {c : Client} {taken : List IpcEvent} (h : Carries fbb c taken)
    (ins : List ClientInput) :
    Carries fbb ((clientStep fbb).finish c ins) (taken ++ (clientStep fbb).emitted c ins) ∧
      (clientStep fbb).emitted c ins <+ offers ins ∧
      (Guarded (fun c e => (clientStep fbb c e).2) TakesOffer c ins →
        (clientStep fbb).emitted c ins = offers ins) := by
  -- By induction on the inputs, with what has been taken so far.
  induction ins generalizing c taken with
  | nil =>
    refine ⟨?_, List.Sublist.refl [], fun _ => rfl⟩
    rw [Machine.emitted, List.append_nil]
    exact h
  | cons input ins ih =>
    obtain ⟨hcarries, hsub, hall⟩ := ih (carries_clientStep h input)
    have hoffers : offers (input :: ins) = offers [input] ++ offers ins := by
      rw [offers, ← List.singleton_append, List.filterMap_append]
      rfl
    rw [Machine.emitted, hoffers]
    refine ⟨?_, (clientStep_sublist c input).append hsub, ?_⟩
    · rw [← List.append_assoc]
      exact hcarries
    · rintro ⟨hinput, hrest⟩
      rw [hall hrest]
      congr 1
      cases input with
      | offer event => exact if_pos hinput
      | write step => rfl

/-! ## The whole server -/

/-- What is broadcast after a shell has connected is broadcast. -/
theorem broadcasts_afterConnect {k : ℕ} {es since : List ServerEvent}
    (h : afterConnect k es = some since) : broadcasts since <+ broadcasts es := by
  induction es generalizing k with
  | nil => cases h
  | cons e es ih =>
    cases e with
    | connect =>
      cases k with
      | zero =>
        obtain rfl := Option.some.inj h
        exact List.Sublist.refl _
      | succ k => exact ih h
    | broadcast event =>
      have hrest : afterConnect k es = some since := by cases k <;> exact h
      exact (ih hrest).cons event
    | writer j step =>
      have hrest : afterConnect k es = some since := by cases k <;> exact h
      exact ih hrest

/-- All frames of a whole stream are complete. -/
theorem completeFrames_all (events : List IpcEvent) :
    completeFrames (events.map fun e => (encodeEvent fbb e).length)
      (events.flatMap (encodeEvent fbb)).length = events.length := by
  induction events with
  | nil => rfl
  | cons event events ih =>
    rw [List.map_cons, List.flatMap_cons, completeFrames, List.length_append,
      if_pos (Nat.le_add_right _ _), Nat.add_sub_cancel_left, ih, List.length_cons, Nat.add_comm]

/-- Each event broadcast fits its frame. However the steps of the daemon and of all writers are
interleaved, a shell has read, in order and each once, some of the events broadcast since it
connected, each as `received` says. If its queue had room at each broadcast, and its writer has
nothing left to write, it has read all of them. -/
theorem broadcast_delivers (fbb : TableBuilder) (es : List ServerEvent)
    (hsend : ∀ event ∈ broadcasts es, Sendable fbb event) (i : ℕ) (c : Client)
    (hc : (run (serverStep fbb) [] es)[i]? = some c) :
    ∃ since, afterConnect i es = some since ∧ ∃ got : List IpcEvent,
      readLoop c.written = (got.map IpcEvent.received, none) ∧ got <+ broadcasts since ∧
      (Guarded (serverStep fbb) (RoomFor i) [] es → c.writer = .idle → c.queue = [] →
        got = broadcasts since) := by
  obtain ⟨since, hsince, rfl, hroom⟩ := getElem?_run_of_le (Nat.zero_le i) hc
  have hstart : Carries fbb .connected [] := rfl
  obtain ⟨hcarries, hsub, hall⟩ := carries_run hstart (since.flatMap (inputsOf i))
  rw [List.nil_append] at hcarries
  rw [offers_inputsOf] at hsub hall
  generalize (clientStep fbb).finish .connected (since.flatMap (inputsOf i)) = c at *
  generalize (clientStep fbb).emitted .connected (since.flatMap (inputsOf i)) = taken at *
  have hevents : ∀ event ∈ taken, Sendable fbb event := by
    intro event hevent
    exact hsend event ((hsub.trans (broadcasts_afterConnect hsince)).subset hevent)
  -- What was written is a front part of the encoded events.
  have hread := readLoop_take fbb taken hevents c.written.length
  rw [← List.prefix_iff_eq_take.mp hcarries.written_prefix] at hread
  refine ⟨since, hsince, _, hread, (List.take_sublist _ _).trans hsub, ?_⟩
  intro hguard hidle hqueue
  unfold Carries at hcarries
  rw [hidle, hqueue] at hcarries
  -- Idle with an empty queue, everything taken has been written.
  have hwritten : c.written = taken.flatMap (encodeEvent fbb) := by
    rw [← hcarries]
    exact (List.append_nil _).symm
  rw [hwritten, completeFrames_all, List.take_length, hall (hroom hguard)]

/-- A daemon that broadcasts before and after a shell connects, and the writer of the shell, whose
socket takes the first frame in two pieces and the second one whole. -/
def lateShell : List ServerEvent :=
  let event : IpcEvent := .tierUpdate .comfortable 0 .nominal
  [.broadcast event, .connect, .broadcast event, .writer 0 .next, .writer 0 (.wrote 20),
    .broadcast event, .writer 0 (.wrote 100), .writer 0 .next, .writer 0 (.wrote 100)]

/-- The queue of the shell had room each time, so it has read both events since it connected. -/
theorem lateShell_reads :
    let fbb : TableBuilder := fun _ => comfortableTable
    ∃ c ∈ (run (serverStep fbb) [] lateShell)[0]?,
      readLoop c.written =
        ((List.replicate 2 (.tierUpdate .comfortable 0 .nominal)).map IpcEvent.received, none) := by
  intro fbb
  have hsend : ∀ event ∈ broadcasts lateShell, Sendable fbb event := by
    intro event hevent
    obtain rfl : event = .tierUpdate .comfortable 0 .nominal := by
      simpa [lateShell, broadcasts] using hevent
    exact sendable_comfortable (by decide) rfl
  obtain ⟨since, hsince, got, hread, -, hall⟩ :=
    broadcast_delivers fbb lateShell hsend 0 _ rfl
  obtain rfl := Option.some.inj hsince
  have hroom : Guarded (serverStep fbb) (RoomFor 0) [] lateShell := by decide +kernel
  obtain rfl := hall hroom (by decide +kernel) (by decide +kernel)
  exact ⟨_, rfl, hread⟩

end

end LowBand.Platform
