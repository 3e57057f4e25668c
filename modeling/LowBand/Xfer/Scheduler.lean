import LowBand.Lib.Run
import Mathlib.Algebra.BigOperators.Group.List.Basic
import Mathlib.Algebra.Ring.Nat
import Mathlib.Tactic.Common

/-!
# The bulk-transfer scheduler

`scheduler.rs` holds the frames of file transfers in one queue and releases them when no voice or
input waits and the governor has granted bytes. A frame in the queue and those already taken out of
it are all in memory, so sizes are natural numbers and their sums do not wrap.

`coalesce` is the loop of `tick`: it takes frames from the front of the queue while they fit the
datagram and the headroom (`Coalesced`). `tick_cases` says what each result of a tick means, and
`scheduler_yields` says it of every state that a run reaches, with the order of the frames and the
bound by the headroom. Without headroom nothing is sent, not even a frame without bytes, which would
fit (`not_stops_only_when_full`).
-/

namespace LowBand.Xfer

open Lib

/-- `DATAGRAM_OVERHEAD`. -/
def datagramOverhead : ℕ := 19

/-- `FRAME_HEADER_OVERHEAD`. -/
def frameHeaderOverhead : ℕ := 2

/-- `MAX_DATAGRAM_XFER_BYTES`. -/
def maxDatagramXferBytes : ℕ := 1200 - datagramOverhead

/-- `PacerDemand`. -/
structure PacerDemand where
  /-- Bytes that wait in the voice queue. -/
  voicePending : ℕ
  /-- Bytes that wait in the input queue. -/
  inputPending : ℕ

/-- `blocks_bulk`. -/
def PacerDemand.blocksBulk (d : PacerDemand) : Bool := d.voicePending > 0 || d.inputPending > 0

/-- `XferFrame`. -/
structure XferFrame where
  /-- A serialised encoding packet. -/
  data : List UInt8
  /-- The transfer object it belongs to. -/
  objectId : UInt64
  /-- The encoding symbol id. -/
  esi : UInt32
deriving DecidableEq

/-- The bytes that the frame takes in a datagram. -/
def XferFrame.slot (f : XferFrame) : ℕ := frameHeaderOverhead + f.data.length

/-- The bytes that frames take in a datagram. -/
def slotBytes (frames : List XferFrame) : ℕ := (frames.map XferFrame.slot).sum

/-- `data_bytes`. -/
def dataBytes (frames : List XferFrame) : ℕ := (frames.map fun f => f.data.length).sum

/-- `TickResult`. -/
inductive TickResult where
  /-- Frames for one datagram. -/
  | sendAggregated (frames : List XferFrame)
  /-- Voice or input waits. -/
  | heldForPriority
  /-- The headroom is used up. -/
  | heldForHeadroom
  /-- The queue is empty. -/
  | idle
deriving DecidableEq

/-- The frames that a tick sends. -/
def TickResult.frames : TickResult → List XferFrame
  | .sendAggregated frames => frames
  | _ => []

/-- `BulkTransferScheduler`. -/
structure BulkTransferScheduler where
  /-- The frames that wait. -/
  queue : List XferFrame
  /-- The bytes that may still be sent in this interval. -/
  headroomRemaining : ℕ
deriving DecidableEq

/-- The loop of `tick`: the frames taken, those left in the queue and the headroom used. -/
def coalesce (headroom : ℕ) :
    List XferFrame → List XferFrame → ℕ → ℕ → List XferFrame × List XferFrame × ℕ
  | [], frames, _, headroomUsed => (frames, [], headroomUsed)
  | next :: queue, frames, datagramUsed, headroomUsed =>
    if frames ≠ [] ∧ datagramUsed + next.slot > maxDatagramXferBytes then
      (frames, next :: queue, headroomUsed)
    else if headroomUsed + next.data.length > headroom then (frames, next :: queue, headroomUsed)
    else
      coalesce headroom queue (frames ++ [next]) (datagramUsed + next.slot)
        (headroomUsed + next.data.length)

namespace BulkTransferScheduler

/-- `BulkTransferScheduler::new`. -/
def new : BulkTransferScheduler := ⟨[], 0⟩

/-- `set_headroom`. -/
def setHeadroom (s : BulkTransferScheduler) (bytes : ℕ) : BulkTransferScheduler :=
  { s with headroomRemaining := bytes }

/-- `enqueue`. -/
def enqueue (s : BulkTransferScheduler) (frame : XferFrame) : BulkTransferScheduler :=
  { s with queue := s.queue ++ [frame] }

/-- `tick`. -/
def tick (s : BulkTransferScheduler) (demand : PacerDemand) : TickResult × BulkTransferScheduler :=
  if demand.blocksBulk then (.heldForPriority, s)
  else if s.headroomRemaining = 0 then (.heldForHeadroom, s)
  else
    match s.queue with
    | [] => (.idle, s)
    | front :: _ =>
      if front.data.length > s.headroomRemaining then (.heldForHeadroom, s)
      else
        let (frames, queue, headroomUsed) := coalesce s.headroomRemaining s.queue [] 0 0
        (.sendAggregated frames, ⟨queue, s.headroomRemaining - headroomUsed⟩)

end BulkTransferScheduler

/-! ## One tick -/

/-- The bytes of two rows of frames add up. -/
@[simp]
theorem dataBytes_append (fs gs : List XferFrame) :
    dataBytes (fs ++ gs) = dataBytes fs + dataBytes gs := by
  simp [dataBytes]

/-- What the loop takes from a queue: frames from its front, within the headroom and the datagram,
until nothing is left or the next frame does not fit. -/
structure Coalesced (headroom : ℕ) (queue : List XferFrame)
    (result : List XferFrame × List XferFrame × ℕ) : Prop where
  /-- The frames are taken from the front of the queue. -/
  split : queue = result.1 ++ result.2.1
  /-- Their bytes are counted. -/
  used : result.2.2 = dataBytes result.1
  /-- They fit the headroom. -/
  within : dataBytes result.1 ≤ headroom
  /-- They fit the datagram, unless it is one frame alone. -/
  fits : slotBytes result.1 ≤ maxDatagramXferBytes ∨ result.1.length = 1
  /-- The next frame does not fit the datagram, or the headroom. The first frame is not compared
  with the datagram. -/
  stops : ∀ next ∈ result.2.1.head?,
    result.1 ≠ [] ∧ maxDatagramXferBytes < slotBytes result.1 + next.slot ∨
      headroom < dataBytes result.1 + next.data.length

/-- The loop, once `frames` are taken from the queue and `rest` is left. -/
theorem coalesce_spec {headroom : ℕ} {frames rest : List XferFrame}
    (hwithin : dataBytes frames ≤ headroom)
    (hfits : slotBytes frames ≤ maxDatagramXferBytes ∨ frames.length = 1) :
    Coalesced headroom (frames ++ rest)
      (coalesce headroom rest frames (slotBytes frames) (dataBytes frames)) := by
  -- By induction on the rest of the queue, with the frames taken so far.
  induction rest generalizing frames with
  | nil => exact ⟨rfl, rfl, hwithin, hfits, by simp [coalesce]⟩
  | cons next rest ih =>
    rw [coalesce]
    split
    · next hfull =>
      refine ⟨rfl, rfl, hwithin, hfits, ?_⟩
      simpa using .inl hfull
    · next hroom =>
      split
      · next hover =>
        refine ⟨rfl, rfl, hwithin, hfits, ?_⟩
        simpa using .inr hover
      · next hwithin' =>
        have hdata : dataBytes (frames ++ [next]) = dataBytes frames + next.data.length := by
          simp [dataBytes]
        have hslot : slotBytes (frames ++ [next]) = slotBytes frames + next.slot := by
          simp [slotBytes]
        have hfits' : slotBytes (frames ++ [next]) ≤ maxDatagramXferBytes ∨
            (frames ++ [next]).length = 1 := by
          -- The first frame is taken even when it does not fit.
          by_cases hnil : frames = []
          · exact .inr (by rw [hnil]; rfl)
          · rw [hslot]
            exact .inl (Nat.not_lt.mp fun hgt => hroom ⟨hnil, hgt⟩)
        have hrec := ih (hdata.trans_le (Nat.not_lt.mp hwithin')) hfits'
        rw [hdata, hslot, List.append_assoc] at hrec
        exact hrec

namespace BulkTransferScheduler

/-- What a tick that sends does. -/
structure Sent (s s' : BulkTransferScheduler) (frames : List XferFrame) : Prop where
  /-- The frames leave from the front of the queue. -/
  split : s.queue = frames ++ s'.queue
  /-- Their bytes are taken off the headroom. -/
  charged : dataBytes frames + s'.headroomRemaining = s.headroomRemaining
  /-- Something is sent. -/
  nonempty : frames ≠ []
  /-- It fits the datagram, unless it is one frame alone. -/
  fits : slotBytes frames ≤ maxDatagramXferBytes ∨ frames.length = 1
  /-- The next frame, if there is one, fits the datagram or the rest of the headroom not. -/
  stops : ∀ next ∈ s'.queue.head?, maxDatagramXferBytes < slotBytes frames + next.slot ∨
    s'.headroomRemaining < next.data.length

/-- What a tick can do: it is held for priority, held for headroom or idle and changes nothing, or
it sends. -/
theorem tick_cases (s : BulkTransferScheduler) (demand : PacerDemand) :
    (s.tick demand = (.heldForPriority, s) ∧ demand.blocksBulk = true) ∨
    (demand.blocksBulk = false ∧
      (s.tick demand = (.heldForHeadroom, s) ∧
          (s.headroomRemaining = 0 ∨ ∃ f ∈ s.queue.head?, s.headroomRemaining < f.data.length) ∨
        s.tick demand = (.idle, s) ∧ s.queue = [] ∨
        ∃ frames s', s.tick demand = (.sendAggregated frames, s') ∧ Sent s s' frames)) := by
  unfold tick
  split
  · next hblocks => exact .inl ⟨rfl, hblocks⟩
  · next hfree =>
    refine .inr ⟨Bool.eq_false_iff.mpr hfree, ?_⟩
    split
    · next hzero => exact .inl ⟨rfl, .inl hzero⟩
    · cases hq : s.queue with
      | nil => exact .inr (.inl ⟨rfl, rfl⟩)
      | cons front rest =>
        dsimp only
        split
        · next hover => exact .inl ⟨rfl, .inr ⟨front, rfl, hover⟩⟩
        · next hfront =>
          -- The front frame fits the headroom, so the loop takes it and perhaps more.
          have hspec : Coalesced s.headroomRemaining ([] ++ front :: rest)
              (coalesce s.headroomRemaining (front :: rest) [] 0 0) :=
            coalesce_spec (Nat.zero_le _) (.inl (Nat.zero_le _))
          generalize coalesce s.headroomRemaining (front :: rest) [] 0 0 = result at hspec ⊢
          obtain ⟨frames, queue, headroomUsed⟩ := result
          obtain ⟨hsplit, hused, hwithin, hfits, hstops⟩ := hspec
          dsimp only at hsplit hused hwithin hfits hstops
          refine .inr (.inr ⟨_, _, rfl, hq.trans hsplit, ?_, ?_, hfits, ?_⟩)
          · dsimp only
            omega
          · -- The front frame fits the headroom, so the loop does not stop before it.
            rintro rfl
            rw [List.nil_append, List.nil_append] at hsplit
            rcases hstops front (by rw [← hsplit]; rfl) with ⟨hne, -⟩ | hover
            · exact hne rfl
            · simp only [dataBytes, List.map_nil, List.sum_nil, Nat.zero_add] at hover
              exact hfront hover
          · intro next hnext
            refine (hstops next hnext).imp And.right fun hover => ?_
            dsimp only
            omega

end BulkTransferScheduler

/-! ## Runs -/

/-- A call to the scheduler. -/
inductive SchedulerEvent where
  /-- `enqueue`. -/
  | enqueue (frame : XferFrame)
  /-- `set_headroom`. -/
  | setHeadroom (bytes : ℕ)
  /-- `tick`. -/
  | tick (demand : PacerDemand)

/-- The frame that a call hands to the scheduler. -/
def SchedulerEvent.enqueued : SchedulerEvent → List XferFrame
  | .enqueue frame => [frame]
  | _ => []

/-- The call sets the headroom. -/
def SchedulerEvent.SetsHeadroom : SchedulerEvent → Prop
  | .setHeadroom _ => True
  | _ => False

namespace BulkTransferScheduler

/-- One call: the frames it releases and the scheduler after it. -/
def exec : Machine BulkTransferScheduler SchedulerEvent XferFrame
  | s, .enqueue frame => ([], s.enqueue frame)
  | s, .setHeadroom bytes => ([], s.setHeadroom bytes)
  | s, .tick demand => ((s.tick demand).1.frames, (s.tick demand).2)

/-- A tick takes what it sends from the front of the queue and off the headroom. -/
theorem tick_spec (s : BulkTransferScheduler) (demand : PacerDemand) :
    s.queue = (s.tick demand).1.frames ++ (s.tick demand).2.queue ∧
      dataBytes (s.tick demand).1.frames + (s.tick demand).2.headroomRemaining =
        s.headroomRemaining := by
  have hunchanged : ∀ r : TickResult, r.frames = [] → s.tick demand = (r, s) →
      s.queue = (s.tick demand).1.frames ++ (s.tick demand).2.queue ∧
        dataBytes (s.tick demand).1.frames + (s.tick demand).2.headroomRemaining =
          s.headroomRemaining := by
    intro r hr h
    rw [h, hr]
    exact ⟨rfl, Nat.zero_add _⟩
  rcases s.tick_cases demand with ⟨h, -⟩ | ⟨-, ⟨h, -⟩ | ⟨h, -⟩ | ⟨frames, s', h, hsent⟩⟩
  · exact hunchanged _ rfl h
  · exact hunchanged _ rfl h
  · exact hunchanged _ rfl h
  · rw [h]
    exact ⟨hsent.split, hsent.charged⟩

/-- What a call enqueues joins the end of the queue, and what it releases leaves from the front. -/
theorem queue_exec (s : BulkTransferScheduler) (e : SchedulerEvent) :
    s.queue ++ e.enqueued = (s.exec e).1 ++ (s.exec e).2.queue := by
  cases e with
  | enqueue frame => rfl
  | setHeadroom bytes => exact List.append_nil _
  | tick demand => exact (List.append_nil _).trans (s.tick_spec demand).1

/-- What a call releases is taken off the headroom, unless the call sets it. -/
theorem headroom_exec (s : BulkTransferScheduler) {e : SchedulerEvent} (he : ¬ e.SetsHeadroom) :
    dataBytes (s.exec e).1 + (s.exec e).2.headroomRemaining = s.headroomRemaining := by
  cases e with
  | enqueue frame => exact Nat.zero_add _
  | setHeadroom bytes => exact absurd trivial he
  | tick demand => exact (s.tick_spec demand).2

/-- Frames leave in the order in which they came, each once. -/
theorem emitted_append_queue (s : BulkTransferScheduler) (es : List SchedulerEvent) :
    exec.emitted s es ++ (exec.finish s es).queue =
      s.queue ++ es.flatMap SchedulerEvent.enqueued := by
  induction es generalizing s with
  | nil => exact (List.append_nil _).symm
  | cons e es ih =>
    rw [Machine.emitted, List.flatMap_cons, List.append_assoc, ← List.append_assoc s.queue,
      queue_exec, List.append_assoc, ← ih]
    rfl

/-- Until the headroom is set again, what is released and what is left of it are what there was. -/
theorem dataBytes_emitted (s : BulkTransferScheduler) {es : List SchedulerEvent}
    (hes : ∀ e ∈ es, ¬ e.SetsHeadroom) :
    dataBytes (exec.emitted s es) + (exec.finish s es).headroomRemaining =
      s.headroomRemaining := by
  induction es generalizing s with
  | nil => exact Nat.zero_add _
  | cons e es ih =>
    obtain ⟨he, hes⟩ := List.forall_mem_cons.mp hes
    have hrec := ih (s.exec e).2 hes
    rw [Machine.emitted, dataBytes_append, ← s.headroom_exec he, ← hrec, Nat.add_assoc]
    rfl

/-- A tick stops taking frames only when the queue is empty, or the next frame does not fit the
datagram or what is left of the headroom. -/
def StopsWhenFull (s : BulkTransferScheduler) (demand : PacerDemand) : Prop :=
  ∀ next ∈ (s.tick demand).2.queue.head?,
    ((s.tick demand).1.frames ≠ [] ∧
        maxDatagramXferBytes < slotBytes (s.tick demand).1.frames + next.slot) ∨
      (s.tick demand).2.headroomRemaining < next.data.length

/-- Without voice or input, a tick that there is headroom for stops only when nothing more fits,
whether it sends or not. -/
theorem stopsWhenFull_of_headroom {s : BulkTransferScheduler} {demand : PacerDemand}
    (hfree : demand.blocksBulk = false) (hroom : s.headroomRemaining ≠ 0) :
    s.StopsWhenFull demand := by
  intro next hnext
  rcases s.tick_cases demand with ⟨-, h⟩ | ⟨-, ⟨h, hheld⟩ | ⟨h, hidle⟩ | ⟨frames, s', h, hsent⟩⟩
  · rw [hfree] at h
    cases h
  · -- Held: the front frame exceeds the headroom.
    rw [h] at hnext ⊢
    obtain ⟨f, hf, hover⟩ := hheld.resolve_left hroom
    obtain rfl := Option.some.inj (hf.symm.trans hnext)
    exact .inr hover
  · rw [h, hidle] at hnext
    cases hnext
  · rw [h] at hnext ⊢
    exact (hsent.stops next hnext).imp_left fun hfull => ⟨hsent.nonempty, hfull⟩

end BulkTransferScheduler

open BulkTransferScheduler in
/-- In every state that a run reaches, the frames enqueued are those released, in order, and those
still queued; a tick while voice or input waits does nothing; a tick that sends gives a datagram
within its limit, or one frame alone; every other tick, whether it sends or not, stops taking frames
only when there is no headroom at all, the queue is empty or the next frame does not fit; and until
the headroom is set again no more bytes are released than it allows. -/
theorem scheduler_yields (es : List SchedulerEvent) :
    let s := exec.finish new es
    exec.emitted new es ++ s.queue = es.flatMap SchedulerEvent.enqueued ∧
    (∀ demand : PacerDemand, demand.voicePending > 0 ∨ demand.inputPending > 0 →
      s.tick demand = (.heldForPriority, s)) ∧
    (∀ demand frames s', s.tick demand = (.sendAggregated frames, s') → s.Sent s' frames) ∧
    (∀ demand : PacerDemand, demand.blocksBulk = false →
      s.headroomRemaining = 0 ∨ s.StopsWhenFull demand) ∧
    ∀ bytes mid, (∀ e ∈ mid, ¬ SchedulerEvent.SetsHeadroom e) →
      dataBytes (exec.emitted (s.setHeadroom bytes) mid) ≤ bytes := by
  intro s
  refine ⟨?_, fun demand hpending => ?_, fun demand frames s' hsend => ?_, fun demand hfree => ?_,
    fun bytes mid hmid => ?_⟩
  · exact emitted_append_queue new es
  · exact if_pos (by simpa [PacerDemand.blocksBulk] using hpending)
  · rcases s.tick_cases demand with ⟨h, -⟩ | ⟨-, ⟨h, -⟩ | ⟨h, -⟩ | ⟨frames', s'', h, hsent⟩⟩
    -- Of the four results only one sends.
    all_goals rw [h] at hsend
    · simp at hsend
    · simp at hsend
    · simp at hsend
    · obtain ⟨hframes, rfl⟩ := Prod.mk.inj hsend
      obtain rfl := TickResult.sendAggregated.inj hframes
      exact hsent
  · exact (em (s.headroomRemaining = 0)).imp_right (stopsWhenFull_of_headroom hfree)
  · have hspent := dataBytes_emitted (s.setHeadroom bytes) hmid
    change _ = bytes at hspent
    omega

open BulkTransferScheduler in
/-- A frame without bytes waits in a new scheduler, which has no headroom. It fits the datagram and
the headroom, nothing else is pending, and a tick does not send it. -/
theorem not_stops_only_when_full :
    ¬ ∀ (es : List SchedulerEvent) (demand : PacerDemand), demand.blocksBulk = false →
      (exec.finish new es).StopsWhenFull demand := by
  intro h
  have hframe := h [.enqueue ⟨[], 0, 0⟩] ⟨0, 0⟩ rfl ⟨[], 0, 0⟩ rfl
  exact absurd hframe (by decide)

end LowBand.Xfer
