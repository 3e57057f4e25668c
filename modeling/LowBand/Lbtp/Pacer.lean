import LowBand.Lib.Queues
import LowBand.Lib.Run
import Mathlib.Algebra.Order.BigOperators.Group.List
import Mathlib.Data.Fintype.Pi
import Mathlib.Data.Rat.Lemmas
import Mathlib.Tactic.Linarith

/-!
# The channel-priority pacer

`pacer.rs` keeps one queue for each channel and releases frames in priority order, as far as its
token bucket pays for them. The token balance, the rate and the cap are exact rationals. A channel
number out of range panics at the queue access, so a `ChannelId` is one of the nine channels.

One pass over the channels finds the first frame that fits the balance and the datagram (`pass`),
and `drain_tick` repeats it. A frame that does not fit keeps its channel closed for the rest of the
tick, because the balance only falls and the datagram only fills; so the channels admitted never go
back in the priority order (`drainLoop_spec`). `TickSpec` collects what a tick does, and
`pacer_conserves` says it of every state that a run reaches, with the order and conservation of the
frames.
-/

namespace LowBand.Lbtp

open Lib

/-- `BURST_TOLERANCE_MS`. -/
def burstToleranceMs : ℚ := 5

/-- `DATAGRAM_OVERHEAD`. -/
def datagramOverhead : ℕ := 19

/-- `FRAME_HEADER_OVERHEAD`. -/
def frameHeaderOverhead : ℕ := 2

/-- `MAX_DATAGRAM_PAYLOAD_BYTES`. -/
def maxDatagramPayloadBytes : ℕ := 1200 - datagramOverhead

/-- `MAX_FRAME_DATA_BYTES`. -/
def maxFrameDataBytes : ℕ := maxDatagramPayloadBytes - frameHeaderOverhead

/-- `ChannelId`: one of the nine channels (`NUM_CHANNELS`). -/
abbrev ChannelId := Fin 9

/-- `PRIORITY_ORDER`. -/
def priorityOrder : List ChannelId := [0, 3, 2, 1, 4, 5, 6, 7, 8]

/-- The place of a channel in the priority order. -/
def rank (ch : ChannelId) : ℕ := priorityOrder.idxOf ch

/-- `PacerFrame`. -/
structure PacerFrame where
  /-- The channel it is sent on. -/
  channel : ChannelId
  /-- Its payload. -/
  data : List UInt8
deriving DecidableEq

namespace PacerFrame

/-- The tokens that the frame costs. -/
def cost (f : PacerFrame) : ℚ := f.data.length

/-- The bytes that the frame takes in a datagram. -/
def slot (f : PacerFrame) : ℕ := frameHeaderOverhead + f.data.length

/-- No frame costs less than nothing. -/
theorem cost_nonneg (f : PacerFrame) : 0 ≤ f.cost := Nat.cast_nonneg _

end PacerFrame

/-- The bytes that frames take in a datagram. -/
def slots (fs : List PacerFrame) : ℕ := (fs.map PacerFrame.slot).sum

/-- The tokens that frames cost. -/
def cost (fs : List PacerFrame) : ℚ := (fs.map PacerFrame.cost).sum

/-- `burst_cap_for_rate`. -/
def burstCapForRate (rateBps : ℚ) : ℚ := rateBps * burstToleranceMs / 8000

/-- `Pacer`. -/
structure Pacer where
  /-- The queue of each channel. -/
  queues : ChannelId → List PacerFrame
  /-- The token balance in bytes. -/
  tokenBytes : ℚ
  /-- The send rate in bits per second. -/
  rateBps : ℚ
  /-- The cap of the token bucket. -/
  burstCapBytes : ℚ
deriving DecidableEq

namespace Pacer

/-- `Pacer::new`. -/
def new (initialRateBps : ℚ) : Pacer :=
  ⟨fun _ => [], 0, initialRateBps, burstCapForRate initialRateBps⟩

/-- `set_rate`. -/
def setRate (p : Pacer) (rateBps : ℚ) : Pacer :=
  { p with
    rateBps := rateBps
    burstCapBytes := burstCapForRate rateBps
    tokenBytes := min p.tokenBytes (burstCapForRate rateBps) }

/-- `advance`. -/
def advance (p : Pacer) (elapsedNs : UInt64) : Pacer :=
  let added := p.rateBps * elapsedNs.toNat / 8000000000
  { p with tokenBytes := min (p.tokenBytes + added) p.burstCapBytes }

/-- `enqueue`: whether the frame is accepted, and the pacer with it. -/
def enqueue (p : Pacer) (frame : PacerFrame) : Bool × Pacer :=
  if frame.data.length > maxFrameDataBytes then (false, p)
  else
    (true, { p with
      queues := Function.update p.queues frame.channel (p.queues frame.channel ++ [frame]) })

/-- A frame is taken from the front of a queue. -/
def popFront (p : Pacer) (ch : ChannelId) : Pacer :=
  { p with queues := Function.update p.queues ch (p.queues ch).tail }

/-- A frame is taken from the front of a queue and paid for. -/
def release (p : Pacer) (ch : ChannelId) (f : PacerFrame) : Pacer :=
  { p.popFront ch with tokenBytes := p.tokenBytes - f.cost }

/-- `dequeue`. -/
def dequeue (p : Pacer) : Option PacerFrame × Pacer :=
  let found := priorityOrder.findSome? fun ch =>
    match p.queues ch with
    | [] => none
    | frame :: _ => if p.tokenBytes ≥ frame.cost then some (ch, frame) else none
  match found with
  | none => (none, p)
  | some (ch, frame) => (some frame, p.release ch frame)

/-- What one pass of `drain_tick` over the channels finds to do. -/
inductive Action where
  /-- A frame that fits no datagram is dropped. -/
  | drop (ch : ChannelId)
  /-- A frame is added to the datagram. -/
  | pack (ch : ChannelId) (front : PacerFrame)
deriving DecidableEq

/-- What a pass does at one channel: nothing when its queue is empty, or its front frame does not
fit the balance or the datagram. -/
def passAt (p : Pacer) (frames : List PacerFrame) (datagramUsed : ℕ) (ch : ChannelId) :
    Option Action :=
  match p.queues ch with
  | [] => none
  | front :: _ =>
    if p.tokenBytes < front.cost then none
    else if front.slot > maxDatagramPayloadBytes then some (.drop ch)
    else if frames ≠ [] ∧ datagramUsed + front.slot > maxDatagramPayloadBytes then none
    else some (.pack ch front)

/-- One pass of the outer loop of `drain_tick`. -/
def pass (p : Pacer) (frames : List PacerFrame) (datagramUsed : ℕ) : Option Action :=
  priorityOrder.findSome? (p.passAt frames datagramUsed)

/-- The outer loop of `drain_tick`. Every pass but the last takes a frame from a queue, so it runs
at most as often as there are frames. -/
def drainLoop : ℕ → Pacer → List PacerFrame → ℕ → List PacerFrame × Pacer
  | 0, p, frames, _ => (frames, p)
  | fuel + 1, p, frames, datagramUsed =>
    match p.pass frames datagramUsed with
    | none => (frames, p)
    | some (.drop ch) => drainLoop fuel (p.popFront ch) frames datagramUsed
    | some (.pack ch front) =>
      drainLoop fuel (p.release ch front) (frames ++ [front]) (datagramUsed + front.slot)

/-- `total_queued_frames`. -/
def totalQueuedFrames (p : Pacer) : ℕ := (priorityOrder.map fun ch => (p.queues ch).length).sum

/-- The frames that `drain_tick` collects, and the pacer after it. -/
def drain (p : Pacer) : List PacerFrame × Pacer := drainLoop (p.totalQueuedFrames + 1) p [] 0

/-- `drain_tick`: the frames of the aggregated datagram, if there are any. -/
def drainTick (p : Pacer) : Option (List PacerFrame) × Pacer :=
  let (frames, p) := p.drain
  (if frames.isEmpty then none else some frames, p)

end Pacer

/-! ## What a release does -/

/-- Each channel has one place in the order. -/
theorem nodup_priorityOrder : priorityOrder.Nodup := by decide

/-- Every channel has one. -/
theorem mem_priorityOrder (ch : ChannelId) : ch ∈ priorityOrder := by
  revert ch
  decide

/-- The costs of two rows of frames add up. -/
@[simp]
theorem cost_append (fs gs : List PacerFrame) : cost (fs ++ gs) = cost fs + cost gs := by
  simp [cost]

/-- Nor do several. -/
theorem cost_nonneg (fs : List PacerFrame) : 0 ≤ cost fs := by
  apply List.sum_nonneg
  intro x hx
  obtain ⟨f, -, rfl⟩ := List.mem_map.mp hx
  exact f.cost_nonneg

namespace Pacer

/-- Every frame waits in the queue of its channel and is small enough to be sent. -/
def Valid (p : Pacer) : Prop :=
  ∀ ch, ∀ f ∈ p.queues ch, f.channel = ch ∧ f.data.length ≤ maxFrameDataBytes

/-- The pacer `p` becomes `p'` by releasing the frames of `fs` and paying for them. -/
structure Released (p p' : Pacer) (fs : List PacerFrame) : Prop where
  /-- Each frame leaves from the front of the queue of its channel. -/
  drains : Drains PacerFrame.channel p.queues p'.queues fs
  /-- The frames are paid for. -/
  tokens : p'.tokenBytes = p.tokenBytes - cost fs
  /-- A balance that pays for a frame is not negative. -/
  paid : fs ≠ [] → 0 ≤ p'.tokenBytes
  /-- The rate stays. -/
  rate : p'.rateBps = p.rateBps
  /-- The cap stays. -/
  cap : p'.burstCapBytes = p.burstCapBytes

/-- Releasing nothing. -/
theorem Released.refl (p : Pacer) : Released p p [] :=
  ⟨Drains.refl _, by simp [cost], fun h => absurd rfl h, rfl, rfl⟩

/-- Releasing some frames and then others. -/
theorem Released.trans {p q r : Pacer} {fs gs : List PacerFrame} (h : Released p q fs)
    (h' : Released q r gs) : Released p r (fs ++ gs) where
  drains := h.drains.trans h'.drains
  tokens := by rw [h'.tokens, h.tokens, cost_append, sub_sub]
  paid := by
    intro hne
    by_cases hgs : gs = []
    · -- The balance after the first release stays.
      subst hgs
      rw [h'.tokens, cost, List.map_nil, List.sum_nil, sub_zero]
      exact h.paid (by simpa using hne)
    · exact h'.paid hgs
  rate := h'.rate.trans h.rate
  cap := h'.cap.trans h.cap

/-- A balance that was not negative covers what is released. -/
theorem Released.covered {p p' : Pacer} {fs : List PacerFrame} (h : Released p p' fs)
    (hp : 0 ≤ p.tokenBytes) : 0 ≤ p'.tokenBytes := by
  by_cases hfs : fs = []
  · subst hfs
    simpa [h.tokens, cost] using hp
  · exact h.paid hfs

/-- What is left of valid queues is valid. -/
theorem Released.valid {p p' : Pacer} {fs : List PacerFrame} (h : Released p p' fs)
    (hp : p.Valid) : p'.Valid := by
  intro ch f hf
  apply hp ch f
  rw [h.drains ch]
  exact List.mem_append_right _ hf

/-- A front frame that the balance covers is released. -/
theorem released_release {p : Pacer} {ch : ChannelId} {f : PacerFrame} {rest : List PacerFrame}
    (hq : p.queues ch = f :: rest) (hch : f.channel = ch) (hcost : f.cost ≤ p.tokenBytes) :
    Released p (p.release ch f) [f] where
  drains := by
    simp only [release, popFront, hq, List.tail_cons]
    exact Drains.pop hq hch
  tokens := by simp [release, cost]
  paid := fun _ => sub_nonneg.mpr hcost
  rate := rfl
  cap := rfl

/-- Each release makes the queues shorter. -/
theorem Released.totalQueuedFrames {p p' : Pacer} {fs : List PacerFrame} (h : Released p p' fs) :
    p.totalQueuedFrames = fs.length + p'.totalQueuedFrames := by
  have hperm := (h.drains.perm nodup_priorityOrder mem_priorityOrder).length_eq
  simpa [Pacer.totalQueuedFrames, List.length_flatMap, Function.comp_def] using hperm

/-! ## One pass -/

/-- The front frame of the channel, if there is one, fits the balance or the datagram not. -/
def Closed (p : Pacer) (frames : List PacerFrame) (datagramUsed : ℕ) (ch : ChannelId) : Prop :=
  ∀ f ∈ (p.queues ch).head?,
    p.tokenBytes < f.cost ∨ frames ≠ [] ∧ maxDatagramPayloadBytes < datagramUsed + f.slot

variable {p : Pacer} {frames : List PacerFrame} {datagramUsed : ℕ} {ch : ChannelId}

/-- A frame that was accepted fits an empty datagram. -/
theorem Valid.slot_le (hp : p.Valid) {f : PacerFrame} (hf : f ∈ p.queues ch) :
    f.slot ≤ maxDatagramPayloadBytes := by
  have hlen := (hp ch f hf).2
  unfold PacerFrame.slot
  unfold maxFrameDataBytes at hlen
  have hle : frameHeaderOverhead ≤ maxDatagramPayloadBytes := by decide
  omega

/-- A pass goes past a channel exactly when it is closed. -/
theorem passAt_eq_none (hp : p.Valid) :
    p.passAt frames datagramUsed ch = none ↔ p.Closed frames datagramUsed ch := by
  unfold passAt Closed
  cases hq : p.queues ch with
  | nil => simp
  | cons f rest =>
    have hslot := hp.slot_le (hq ▸ List.mem_cons_self : f ∈ p.queues ch)
    simp only [List.head?_cons, Option.mem_some_iff, forall_eq']
    split
    · next h => simp [h]
    · next h =>
      -- An accepted frame is never too large for a datagram of its own, so none is dropped.
      rw [if_neg (Nat.not_lt.mpr hslot)]
      split
      · next h' => simpa using .inr h'
      · next h' => simpa [h] using h'

/-- At a channel that is not closed, a pass admits the front frame. -/
theorem passAt_eq_some (hp : p.Valid) {a : Action} (h : p.passAt frames datagramUsed ch = some a) :
    ∃ f rest, p.queues ch = f :: rest ∧ a = .pack ch f ∧ f.cost ≤ p.tokenBytes ∧
      (frames = [] ∨ datagramUsed + f.slot ≤ maxDatagramPayloadBytes) := by
  unfold passAt at h
  cases hq : p.queues ch with
  | nil => simp [hq] at h
  | cons f rest =>
    -- No frame in a queue is too long for a datagram, so that branch is not taken.
    have hslot := hp.slot_le (hq ▸ List.mem_cons_self : f ∈ p.queues ch)
    simp only [hq] at h
    split at h
    · simp at h
    · next hcost =>
      rw [if_neg (Nat.not_lt.mpr hslot)] at h
      split at h
      · simp at h
      · next hfit =>
        refine ⟨f, rest, rfl, (Option.some.inj h).symm, not_lt.mp hcost, ?_⟩
        by_contra hcon
        rw [not_or] at hcon
        exact hfit ⟨hcon.1, Nat.not_le.mp hcon.2⟩

/-- A pass that finds nothing to do found every channel closed. -/
theorem closed_of_pass_eq_none (hp : p.Valid) (h : p.pass frames datagramUsed = none)
    (ch : ChannelId) : p.Closed frames datagramUsed ch := by
  rw [pass, List.findSome?_eq_none_iff] at h
  exact (passAt_eq_none hp).mp (h ch (mem_priorityOrder ch))

/-- A pass that finds something to do admits the front frame of a channel, and the channels of
higher priority are closed. -/
theorem pass_eq_some (hp : p.Valid) {a : Action} (h : p.pass frames datagramUsed = some a) :
    ∃ ch f rest, p.queues ch = f :: rest ∧ a = .pack ch f ∧ f.cost ≤ p.tokenBytes ∧
      (frames = [] ∨ datagramUsed + f.slot ≤ maxDatagramPayloadBytes) ∧
      ∀ ch', rank ch' < rank ch → p.Closed frames datagramUsed ch' := by
  rw [pass, List.findSome?_eq_some_iff] at h
  -- The search stops at `ch`, and found nothing at the channels before it.
  obtain ⟨pre, ch, post, hsplit, hat, hpre⟩ := h
  obtain ⟨f, rest, hq, ha, hcost, hfit⟩ := passAt_eq_some hp hat
  refine ⟨ch, f, rest, hq, ha, hcost, hfit, fun ch' hlt => ?_⟩
  -- A channel of higher priority stands before `ch` in the order.
  have hmem : ch' ∈ pre := by
    by_contra hnot
    have hle : rank ch ≤ pre.length := by
      rw [rank, hsplit]
      by_cases hch : ch ∈ pre
      · rw [List.idxOf_append_of_mem hch]
        exact (List.idxOf_lt_length_of_mem hch).le
      · rw [List.idxOf_append_of_notMem hch, List.idxOf_cons_self, Nat.add_zero]
    have hge : pre.length ≤ rank ch' := by
      rw [rank, hsplit, List.idxOf_append_of_notMem hnot]
      exact Nat.le_add_right _ _
    omega
  exact (passAt_eq_none hp).mp (hpre ch' hmem)

/-- A closed channel stays closed when a frame of another one is admitted. -/
theorem Closed.release {ch' : ChannelId} (h : p.Closed frames datagramUsed ch') (hne : ch' ≠ ch)
    (f : PacerFrame) : (p.release ch f).Closed (frames ++ [f]) (datagramUsed + f.slot) ch' := by
  intro g hg
  simp only [Pacer.release, popFront, Function.update_of_ne hne] at hg ⊢
  have hcost := f.cost_nonneg
  -- The balance only falls and the datagram only fills.
  rcases h g hg with hlt | ⟨-, hfull⟩
  · exact .inl (by linarith)
  · exact .inr ⟨by simp, by omega⟩

/-! ## The loop -/

/-- The frames of `fs` from the channels up to `ch` in the priority order. -/
def framesUpTo (ch : ChannelId) (fs : List PacerFrame) : List PacerFrame :=
  fs.filter fun f => rank f.channel ≤ rank ch

/-- What `drain_tick` does from a state in which the channels before place `k` are closed: it
releases `gs` in priority order from place `k` on, keeps to the datagram, and stops with every
channel closed. -/
structure LoopSpec (p p' : Pacer) (frames gs : List PacerFrame) (datagramUsed k : ℕ) : Prop where
  /-- The frames are released. -/
  released : Released p p' gs
  /-- They come in priority order. -/
  sorted : gs.Pairwise fun f g => rank f.channel ≤ rank g.channel
  /-- None is from a channel before place `k`. -/
  rank_ge : ∀ g ∈ gs, k ≤ rank g.channel
  /-- The datagram is not overfilled. -/
  size : datagramUsed + slots gs ≤ maxDatagramPayloadBytes
  /-- Every channel is closed in the end. -/
  closed : ∀ ch, p'.Closed (frames ++ gs) (datagramUsed + slots gs) ch
  /-- A frame that stays has no room behind the frames of the channels up to its own. -/
  blocked : ∀ ch, ∀ f ∈ (p'.queues ch).head?,
    p.tokenBytes < cost (framesUpTo ch gs) + f.cost ∨
      maxDatagramPayloadBytes < datagramUsed + slots (framesUpTo ch gs) + f.slot

/-- When no frame is from the channels up to `ch`, none is from `ch`. -/
theorem ofKey_eq_nil_of_framesUpTo {fs : List PacerFrame} (h : framesUpTo ch fs = []) :
    ofKey PacerFrame.channel ch fs = [] := by
  refine List.filter_eq_nil_iff.mpr fun f hf => ?_
  have hnot := List.filter_eq_nil_iff.mp h f hf
  simp only [decide_eq_true_eq] at hnot ⊢
  rintro rfl
  exact hnot le_rfl

/-- A closed channel is blocked from the first. -/
theorem Closed.blocked (h : p.Closed frames datagramUsed ch) {f : PacerFrame}
    (hf : f ∈ (p.queues ch).head?) :
    p.tokenBytes < cost [] + f.cost ∨
      maxDatagramPayloadBytes < datagramUsed + slots [] + f.slot := by
  rcases h f hf with hlt | ⟨-, hfull⟩
  · exact .inl (by simpa [cost] using hlt)
  · exact .inr (by simpa [slots] using hfull)

/-- The loop does what `LoopSpec` says, with fuel for every frame. -/
theorem drainLoop_spec {fuel k : ℕ} (hp : p.Valid) (hfuel : p.totalQueuedFrames < fuel)
    (hused : datagramUsed ≤ maxDatagramPayloadBytes) (hempty : frames = [] → datagramUsed = 0)
    (hk : ∀ ch, rank ch < k → p.Closed frames datagramUsed ch) :
    ∃ gs, (drainLoop fuel p frames datagramUsed).1 = frames ++ gs ∧
      LoopSpec p (drainLoop fuel p frames datagramUsed).2 frames gs datagramUsed k := by
  -- By induction on the fuel. Once a frame of `ch` is admitted, the channels before it are closed,
  -- so the rest of the loop starts from the place of `ch`.
  induction fuel generalizing p frames datagramUsed k with
  | zero => exact absurd hfuel (Nat.not_lt_zero _)
  | succ fuel ih =>
    rw [drainLoop]
    cases hpass : p.pass frames datagramUsed with
    | none =>
      have hclosed := closed_of_pass_eq_none hp hpass
      refine ⟨[], by simp, Released.refl p, List.Pairwise.nil, by simp,
        by simpa [slots] using hused, ?_, fun ch f hf => (hclosed ch).blocked hf⟩
      simpa [slots] using hclosed
    | some a =>
      obtain ⟨ch, f, rest, hq, rfl, hcost, hfit, hclosed⟩ := pass_eq_some hp hpass
      have hmem : f ∈ p.queues ch := hq ▸ List.mem_cons_self
      have hch : f.channel = ch := (hp ch f hmem).1
      have hrel := released_release hq hch hcost
      -- The first frame is not compared with the datagram, but it fits an empty one.
      have hslot : datagramUsed + f.slot ≤ maxDatagramPayloadBytes := by
        rcases hfit with hnil | hfit
        · rw [hempty hnil, Nat.zero_add]
          exact hp.slot_le hmem
        · exact hfit
      have htotal := hrel.totalQueuedFrames
      simp only [List.length_singleton] at htotal
      obtain ⟨gs, hout, hspec⟩ := ih (k := rank ch) (hrel.valid hp) (by omega) hslot (by simp)
        (fun ch' hlt => (hclosed ch' hlt).release (by rintro rfl; exact lt_irrefl _ hlt) f)
      have hkch : k ≤ rank ch := by
        -- The channels before place `k` are closed, and `ch` is not.
        by_contra hlt
        rcases hk ch (not_le.mp hlt) f (by rw [hq]; rfl) with h | ⟨hne, hfull⟩
        · exact absurd hcost (not_le.mpr h)
        · omega
      refine ⟨f :: gs, by simpa using hout, hrel.trans hspec.released, ?_, ?_, ?_, ?_, ?_⟩
      · refine List.pairwise_cons.mpr ⟨fun g hg => ?_, hspec.sorted⟩
        rw [hch]
        exact hspec.rank_ge g hg
      · intro g hg
        rcases List.mem_cons.mp hg with rfl | hg
        · rwa [hch]
        · exact hkch.trans (hspec.rank_ge g hg)
      · simpa [slots, Nat.add_assoc] using hspec.size
      · simpa [slots, Nat.add_assoc] using hspec.closed
      · intro ch' g hg
        rcases lt_or_ge (rank ch') (rank ch) with hlt | hge
        · -- No frame is taken from a channel before `ch`, which is closed already.
          have hnone : framesUpTo ch' (f :: gs) = [] := by
            refine List.filter_eq_nil_iff.mpr fun x hx => ?_
            have hle : rank ch ≤ rank x.channel := by
              rcases List.mem_cons.mp hx with rfl | hx
              · rw [hch]
              · exact hspec.rank_ge x hx
            simpa using lt_of_lt_of_le hlt hle
          have hqueue := (hrel.trans hspec.released).drains ch'
          rw [List.singleton_append, ofKey_eq_nil_of_framesUpTo hnone, List.nil_append] at hqueue
          rw [hnone]
          exact (hclosed ch' hlt).blocked (hqueue ▸ hg)
        · -- The frame of `ch` counts for the channels from `ch` on.
          have hcons : framesUpTo ch' (f :: gs) = f :: framesUpTo ch' gs :=
            List.filter_cons_of_pos (by simpa [hch] using hge)
          rw [hcons]
          refine (hspec.blocked ch' g hg).imp (fun hlt => ?_) fun hfull => ?_
          · have htokens : p.tokenBytes - f.cost < cost (framesUpTo ch' gs) + g.cost := hlt
            simp only [cost, List.map_cons, List.sum_cons] at htokens ⊢
            linarith
          · simp only [slots, List.map_cons, List.sum_cons] at hfull ⊢
            omega

/-- What the frames of a tick are: sorted by priority, within the datagram, and with nothing left
that would fit both the datagram and the balance. -/
structure TickSpec (p' : Pacer) (frames : List PacerFrame) : Prop where
  /-- The frames are sorted by `PRIORITY_ORDER`. -/
  sorted : frames.Pairwise fun f g => rank f.channel ≤ rank g.channel
  /-- The aggregated size, with the headers, keeps to the limit. -/
  size : slots frames ≤ maxDatagramPayloadBytes
  /-- The next frame of every channel does not fit the balance or the datagram. -/
  stops : ∀ ch, ∀ f ∈ (p'.queues ch).head?,
    p'.tokenBytes < f.cost ∨ maxDatagramPayloadBytes < slots frames + f.slot

/-- `drain_tick` does what `LoopSpec` says, from an empty datagram. -/
theorem drain_spec (hp : p.Valid) :
    ∃ gs, p.drain.1 = gs ∧ LoopSpec p p.drain.2 [] gs 0 0 :=
  drainLoop_spec hp (Nat.lt_succ_self _) (Nat.zero_le _) (fun _ => rfl)
    fun _ hlt => absurd hlt (Nat.not_lt_zero _)

/-- `drain_tick` releases the frames of its datagram, and they are as they should be. -/
theorem drainTick_spec (hp : p.Valid) :
    Released p p.drainTick.2 (p.drainTick.1.getD []) ∧
      TickSpec p.drainTick.2 (p.drainTick.1.getD []) ∧ p.drainTick.1 ≠ some [] := by
  obtain ⟨gs, hout, hspec⟩ := drain_spec hp
  have hframes : p.drainTick.1.getD [] = gs := by
    simp only [drainTick, hout]
    cases gs <;> rfl
  rw [hframes]
  refine ⟨hspec.released, ⟨hspec.sorted, ?_, ?_⟩, ?_⟩
  · simpa using hspec.size
  · intro ch f hf
    refine (hspec.closed ch f hf).imp id fun h => ?_
    simpa using h.2
  · simp only [drainTick, hout]
    cases gs <;> simp

/-- `dequeue` releases the frame it returns. -/
theorem dequeue_spec (hp : p.Valid) : Released p p.dequeue.2 p.dequeue.1.toList := by
  unfold dequeue
  dsimp only
  split
  · exact Released.refl p
  · next ch f hfound =>
    obtain ⟨ch', -, hat⟩ := List.exists_of_findSome?_eq_some hfound
    split at hat
    · simp at hat
    · next hq =>
      split at hat
      · next hcost =>
        obtain ⟨rfl, rfl⟩ := Prod.mk.inj (Option.some.inj hat)
        exact released_release hq (hp _ _ (hq ▸ List.mem_cons_self)).1 hcost
      · simp at hat

end Pacer

/-! ## Runs -/

/-- A call to the pacer. -/
inductive PacerEvent where
  /-- `enqueue`. -/
  | enqueue (frame : PacerFrame)
  /-- `advance`. -/
  | advance (elapsedNs : UInt64)
  /-- `set_rate`. -/
  | setRate (rateBps : ℚ)
  /-- `dequeue`. -/
  | dequeue
  /-- `drain_tick`. -/
  | drainTick

namespace Pacer

/-- One call: the frames it releases, and the pacer after it. -/
def exec (p : Pacer) : PacerEvent → List PacerFrame × Pacer
  | .enqueue frame => ([], (p.enqueue frame).2)
  | .advance elapsedNs => ([], p.advance elapsedNs)
  | .setRate rateBps => ([], p.setRate rateBps)
  | .dequeue => (p.dequeue.1.toList, p.dequeue.2)
  | .drainTick => (p.drainTick.1.getD [], p.drainTick.2)

/-- The frame that a call hands to the pacer, if it is accepted. -/
def accepts (p : Pacer) : PacerEvent → List PacerFrame
  | .enqueue frame => if (p.enqueue frame).1 then [frame] else []
  | _ => []

variable {p : Pacer}

/-- A frame that fits a datagram goes to the end of its queue. -/
theorem enqueue_of_le {f : PacerFrame} (h : f.data.length ≤ maxFrameDataBytes) :
    p.enqueue f =
      (true, { p with queues := Function.update p.queues f.channel (p.queues f.channel ++ [f]) }) :=
  if_neg (Nat.not_lt.mpr h)

/-- One that does not fit is refused. -/
theorem enqueue_of_lt {f : PacerFrame} (h : maxFrameDataBytes < f.data.length) :
    p.enqueue f = (false, p) := if_pos h

/-- A call keeps the queues valid. -/
theorem Valid.exec (hp : p.Valid) (e : PacerEvent) : (p.exec e).2.Valid := by
  cases e with
  | enqueue f =>
    rcases le_or_gt f.data.length maxFrameDataBytes with hle | hlt
    · simp only [Pacer.exec, enqueue_of_le hle]
      intro ch g hg
      dsimp only at hg
      -- Only the queue of the frame changes, by the frame.
      by_cases hch : ch = f.channel
      · subst hch
        rw [Function.update_self, List.mem_append, List.mem_singleton] at hg
        rcases hg with hg | rfl
        · exact hp _ g hg
        · exact ⟨rfl, hle⟩
      · rw [Function.update_of_ne hch] at hg
        exact hp ch g hg
    · simp only [Pacer.exec, enqueue_of_lt hlt]
      exact hp
  | advance elapsedNs => exact hp
  | setRate rateBps => exact hp
  | dequeue => exact (dequeue_spec hp).valid hp
  | drainTick => exact (drainTick_spec hp).1.valid hp

/-- What a call accepts joins the end of its queue, and what it releases leaves from the front. -/
theorem queues_exec (hp : p.Valid) (e : PacerEvent) (ch : ChannelId) :
    p.queues ch ++ ofKey PacerFrame.channel ch (p.accepts e) =
      ofKey PacerFrame.channel ch (p.exec e).1 ++ (p.exec e).2.queues ch := by
  cases e with
  | enqueue f =>
    rcases le_or_gt f.data.length maxFrameDataBytes with hle | hlt
    · simp only [Pacer.exec, accepts, enqueue_of_le hle, if_true]
      -- The frame joins its own queue, and no frame of another channel is accepted.
      by_cases hch : ch = f.channel
      · subst hch
        rw [Function.update_self, ofKey_singleton_self]
        rfl
      · rw [Function.update_of_ne hch, ofKey_singleton_of_ne (Ne.symm hch), List.append_nil]
        rfl
    · simp [Pacer.exec, accepts, enqueue_of_lt hlt]
  | advance elapsedNs => exact List.append_nil _
  | setRate rateBps => exact List.append_nil _
  | dequeue => exact (List.append_nil _).trans ((dequeue_spec hp).drains ch)
  | drainTick => exact (List.append_nil _).trans ((drainTick_spec hp).1.drains ch)

end Pacer

/-- A pacer with the frames it has accepted and those it has released, oldest first. -/
structure PacerRun where
  /-- The pacer. -/
  pacer : Pacer
  /-- The frames accepted so far. -/
  accepted : List PacerFrame
  /-- The frames released so far. -/
  released : List PacerFrame

namespace PacerRun

/-- A new pacer. -/
def start (rateBps : ℚ) : PacerRun := ⟨.new rateBps, [], []⟩

/-- One call. -/
def step (w : PacerRun) (e : PacerEvent) : PacerRun :=
  ⟨(w.pacer.exec e).2, w.accepted ++ w.pacer.accepts e, w.released ++ (w.pacer.exec e).1⟩

/-- The accepted frames are those released and those still queued, each once, and the frames of a
channel are released in the order of their arrival. -/
def Conserved (w : PacerRun) : Prop :=
  (w.released ++ priorityOrder.flatMap w.pacer.queues).Perm w.accepted ∧
    ∀ ch, ofKey PacerFrame.channel ch w.released ++ w.pacer.queues ch =
      ofKey PacerFrame.channel ch w.accepted

/-- The invariant of a run: the queues are valid, and each holds what its channel has still to
send. -/
structure Inv (w : PacerRun) : Prop where
  /-- The queues are valid. -/
  valid : w.pacer.Valid
  /-- The frames of a channel leave in the order of their arrival. -/
  fifo : ∀ ch, ofKey PacerFrame.channel ch w.released ++ w.pacer.queues ch =
    ofKey PacerFrame.channel ch w.accepted

/-- The invariant holds at the start. -/
theorem Inv.start (rateBps : ℚ) : (start rateBps).Inv where
  valid := by simp [PacerRun.start, Pacer.new, Pacer.Valid]
  fifo := fun _ => rfl

/-- An event keeps it. -/
theorem Inv.step (w : PacerRun) (e : PacerEvent) (h : w.Inv) : (w.step e).Inv where
  valid := h.valid.exec e
  fifo := by
    intro ch
    simp only [PacerRun.step, ofKey_append]
    rw [← h.fifo ch, List.append_assoc, List.append_assoc, Pacer.queues_exec h.valid]

end PacerRun

/-- In every state that a run reaches, the accepted frames are the released and the queued ones, in
order on each channel, and a tick gives a sorted datagram within its limit and stops only when no
front frame fits. -/
theorem pacer_conserves (rateBps : ℚ) (es : List PacerEvent) :
    let w := run PacerRun.step (PacerRun.start rateBps) es
    w.Conserved ∧ w.pacer.drainTick.1 ≠ some [] ∧
      w.pacer.drainTick.2.TickSpec (w.pacer.drainTick.1.getD []) := by
  intro w
  have hinv : w.Inv := run_induction PacerRun.Inv.step es (PacerRun.Inv.start rateBps)
  -- What a tick does needs only that the queues are valid.
  obtain ⟨-, htick, hne⟩ := Pacer.drainTick_spec hinv.valid
  exact ⟨⟨perm_of_fifo nodup_priorityOrder mem_priorityOrder hinv.fifo, hinv.fifo⟩, hne, htick⟩

end LowBand.Lbtp
