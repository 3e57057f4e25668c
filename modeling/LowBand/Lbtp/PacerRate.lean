import LowBand.Lbtp.Pacer
import LowBand.Lib.TokenBucket
import Mathlib.Tactic.FieldSimp
import Mathlib.Tactic.Ring

/-!
# The rate of the pacer

The token bucket of `pacer.rs`. A run of the pacer is a run of a bucket (`Lib.Bucket`) that fills at
an eighth of the rate, in bytes a second: `Pacer.ops` are the bucket's operations in one call, and
`bucket_exec` is the simulation. The bounds on the balance and on what is released in a window of
time are those of the bucket (`pacer_conforms`).

A frame is released when the balance covers it, and the balance can grow up to the burst cap of the
rate and no further. The cap depends on the rate and the size of an accepted frame does not, so a
frame that is next in the priority order is released after some time if and only if the rate is at
least 1600 bits a second for each of its bytes (`released_iff_affordable`).
-/

namespace LowBand.Lbtp

open Lib

/-- The cap of the bucket, as a function of its rate in bytes a second. -/
def byteCap (bytesPerSecond : ℚ) : ℚ := burstCapForRate (8 * bytesPerSecond)

/-- The cap of a rate is not negative. -/
theorem byteCap_nonneg (r : ℚ) (h : 0 ≤ r) : 0 ≤ byteCap r := by
  unfold byteCap burstCapForRate burstToleranceMs
  positivity

namespace Pacer

/-- The bucket of a pacer. -/
def bucket (p : Pacer) : Bucket := ⟨p.tokenBytes, p.rateBps / 8⟩

/-- What a call does to the bucket: time in seconds, the rate in bytes a second, and the bytes of
the frames released. -/
def ops (p : Pacer) (e : PacerEvent) : List BucketOp :=
  match e with
  | .enqueue _ => []
  | .advance elapsedNs => [.pass (elapsedNs.toNat / 1000000000)]
  | .setRate rateBps => [.setRate (rateBps / 8)]
  | .dequeue | .drainTick => [.spend (cost (p.exec e).1)]

/-- What a run does to the bucket over time. -/
def timeline : Pacer → List PacerEvent → List BucketOp
  | _, [] => []
  | p, e :: es => p.ops e ++ timeline (p.exec e).2 es

/-- The cap is that of the rate. -/
def Capped (p : Pacer) : Prop := p.burstCapBytes = burstCapForRate p.rateBps

variable {p : Pacer}

/-- A capped pacer has the cap of its rate. -/
theorem byteCap_rate (hcap : p.Capped) : byteCap (p.rateBps / 8) = p.burstCapBytes := by
  rw [hcap, byteCap, mul_div_cancel₀ _ (by norm_num : (8 : ℚ) ≠ 0)]

/-- What a call that releases frames does to the bucket. -/
theorem Released.bucket {p' : Pacer} {fs : List PacerFrame} (h : Released p p' fs) :
    p'.bucket = p.bucket.step byteCap (.spend (cost fs)) := by
  simp only [Pacer.bucket, Bucket.step, h.tokens, h.rate]

/-- A call keeps the cap that of the rate. -/
theorem Capped.exec (hp : p.Valid) (hcap : p.Capped) (e : PacerEvent) : (p.exec e).2.Capped := by
  have hrel : ∀ {p' fs}, Released p p' fs → p'.Capped := by
    intro p' fs h
    unfold Capped
    rw [h.cap, h.rate]
    exact hcap
  cases e with
  | enqueue f =>
    rcases le_or_gt f.data.length maxFrameDataBytes with hle | hlt
    · simp only [Pacer.exec, enqueue_of_le hle]
      exact hcap
    · simp only [Pacer.exec, enqueue_of_lt hlt]
      exact hcap
  | advance elapsedNs => exact hcap
  | setRate rateBps => exact rfl
  | dequeue => exact hrel (dequeue_spec hp)
  | drainTick => exact hrel (drainTick_spec hp).1

/-- A call of the pacer is a run of its bucket. -/
theorem bucket_exec (hp : p.Valid) (hcap : p.Capped) (e : PacerEvent) :
    (p.exec e).2.bucket = run (Bucket.step byteCap) p.bucket (p.ops e) := by
  cases e with
  | enqueue f =>
    rcases le_or_gt f.data.length maxFrameDataBytes with hle | hlt
    · simp only [Pacer.exec, enqueue_of_le hle]
      rfl
    · simp only [Pacer.exec, enqueue_of_lt hlt]
      rfl
  | advance elapsedNs =>
    -- The pacer counts bits and nanoseconds, the bucket bytes and seconds.
    have hgain : p.rateBps * elapsedNs.toNat / 8000000000 =
        p.rateBps / 8 * (elapsedNs.toNat / 1000000000) := by ring
    simp only [ops, run_cons, run_nil, Bucket.step, Pacer.exec, advance, Pacer.bucket,
      byteCap_rate hcap, hgain]
  | setRate rateBps =>
    have hbyte : byteCap (rateBps / 8) = burstCapForRate rateBps := by
      rw [byteCap, mul_div_cancel₀ _ (by norm_num : (8 : ℚ) ≠ 0)]
    simp only [ops, run_cons, run_nil, Bucket.step, Pacer.exec, setRate, Pacer.bucket, hbyte]
  | dequeue => exact (dequeue_spec hp).bucket
  | drainTick => exact (drainTick_spec hp).1.bucket

/-- A rate that a call sets is not negative. -/
def RateNonneg : PacerEvent → Prop
  | .setRate rateBps => 0 ≤ rateBps
  | _ => True

/-- A call whose rate is not negative does to the bucket only what it allows. -/
theorem allowed_ops (hp : p.Valid) {e : PacerEvent} (he : RateNonneg e)
    (htokens : 0 ≤ p.tokenBytes) :
    Guarded (Bucket.step byteCap) Bucket.Allowed p.bucket (p.ops e) := by
  -- What is released was covered by the balance.
  have hrel : ∀ {p' fs}, Released p p' fs → p.bucket.Allowed (.spend (cost fs)) := by
    intro p' fs h
    have hcovered := h.covered htokens
    rw [h.tokens] at hcovered
    exact ⟨cost_nonneg fs, sub_nonneg.mp hcovered⟩
  cases e with
  | enqueue f => trivial
  | advance elapsedNs =>
    refine ⟨?_, trivial⟩
    change (0 : ℚ) ≤ elapsedNs.toNat / 1000000000
    positivity
  | setRate rateBps =>
    have hrate : 0 ≤ rateBps := he
    refine ⟨?_, trivial⟩
    change 0 ≤ rateBps / 8
    positivity
  | dequeue => exact ⟨hrel (dequeue_spec hp), trivial⟩
  | drainTick => exact ⟨hrel (drainTick_spec hp).1, trivial⟩

/-- The pacer after a run. -/
def after (p : Pacer) (es : List PacerEvent) : Pacer := run (fun p e => (p.exec e).2) p es

/-- A pacer that works: its queues are valid, its cap is that of the rate, and its bucket keeps its
bounds. -/
structure Sound (p : Pacer) : Prop where
  /-- The queues are valid. -/
  valid : p.Valid
  /-- The cap is that of the rate. -/
  capped : p.Capped
  /-- The balance lies between zero and the cap. -/
  conforming : p.bucket.Conforming byteCap

/-- A new pacer is sound. -/
theorem Sound.new {rate : ℚ} (hrate : 0 ≤ rate) : (new rate).Sound where
  valid := by simp [Pacer.new, Valid]
  capped := rfl
  conforming := by
    have hbyte : 0 ≤ rate / 8 := by positivity
    exact ⟨hbyte, le_rfl, byteCap_nonneg _ hbyte⟩

/-- An event with a rate that is not negative keeps a pacer sound. -/
theorem Sound.exec (h : p.Sound) {e : PacerEvent} (he : RateNonneg e) : (p.exec e).2.Sound where
  valid := h.valid.exec e
  capped := h.capped.exec h.valid e
  conforming := by
    rw [bucket_exec h.valid h.capped]
    exact h.conforming.run byteCap_nonneg (allowed_ops h.valid he h.conforming.tokens_nonneg)

/-- So do all events of a run. -/
theorem Sound.after (h : p.Sound) {es : List PacerEvent} (hes : ∀ e ∈ es, RateNonneg e) :
    (p.after es).Sound := by
  induction es generalizing p with
  | nil => exact h
  | cons e es ih =>
    obtain ⟨he, hes⟩ := List.forall_mem_cons.mp hes
    exact ih (h.exec he) hes

/-- A run whose rates are not negative does to the bucket only what it allows. -/
theorem Sound.allowed_timeline (h : p.Sound) {es : List PacerEvent}
    (hes : ∀ e ∈ es, RateNonneg e) :
    Guarded (Bucket.step byteCap) Bucket.Allowed p.bucket (p.timeline es) := by
  induction es generalizing p with
  | nil => trivial
  | cons e es ih =>
    obtain ⟨he, hes⟩ := List.forall_mem_cons.mp hes
    refine (guarded_append _).mpr
      ⟨allowed_ops h.valid he h.conforming.tokens_nonneg, ?_⟩
    rw [← bucket_exec h.valid h.capped]
    exact ih (h.exec he) hes

end Pacer

/-- In every run with rates that are not negative the balance stays between zero and the cap of the
current rate, and in every window of time the bytes released are at most a cap in force at its start
and an eighth of the integral of the rate. -/
theorem pacer_conforms (rate : ℚ) (hrate : 0 ≤ rate) (es : List PacerEvent)
    (hes : ∀ e ∈ es, Pacer.RateNonneg e) :
    let p := (Pacer.new rate).after es
    let line := (Pacer.new rate).timeline es
    (0 ≤ p.tokenBytes ∧ p.tokenBytes ≤ burstCapForRate p.rateBps) ∧
      ∀ a w, 0 ≤ a → ∃ c ∈ capsAt byteCap a 0 (rate / 8) line,
        spentIn a w 0 line ≤ c + supplyIn a w 0 (rate / 8) line := by
  intro p line
  have hnew := Pacer.Sound.new hrate
  have hp : p.Sound := hnew.after hes
  refine ⟨⟨hp.conforming.tokens_nonneg, ?_⟩, fun a w ha => ?_⟩
  · rw [← hp.capped, ← Pacer.byteCap_rate hp.capped]
    exact hp.conforming.tokens_le
  · exact exists_cap_spentIn_le byteCap_nonneg (Pacer.new rate).bucket ha hnew.conforming
      (hnew.allowed_timeline hes)

/-- A run that fills the bucket, releases a frame of three bytes and stops the pacer. -/
theorem pacer_conforms_run :
    let es : List PacerEvent :=
      [.enqueue ⟨0, [1, 2, 3]⟩, .advance 5000000, .dequeue, .setRate 0, .advance 1000]
    let line := (Pacer.new 8000).timeline es
    spentIn 0 1 0 line = 3 ∧
      ∃ c ∈ capsAt byteCap 0 0 (8000 / 8) line,
        spentIn 0 1 0 line ≤ c + supplyIn 0 1 0 (8000 / 8) line := by
  intro es line
  have hes : ∀ e ∈ es, Pacer.RateNonneg e := by
    simp [es, Pacer.RateNonneg]
  exact ⟨by decide +kernel, (pacer_conforms 8000 (by norm_num) es hes).2 0 1 le_rfl⟩

/-- A negative rate makes the cap negative, and the balance with it. -/
theorem negative_rate_overdraws :
    ((Pacer.new 8000).after [.setRate (-8000)]).tokenBytes = -5 ∧
      ¬ 0 ≤ ((Pacer.new 8000).after [.setRate (-8000)]).tokenBytes := by
  decide +kernel

/-! ## Which frames are released -/

/-- The frame is the next one in the priority order: it is at the front of the queue of its channel,
and the queues of higher priority are empty. -/
structure Pacer.NextUp (p : Pacer) (f : PacerFrame) : Prop where
  /-- It is at the front of its queue. -/
  front : (p.queues f.channel).head? = some f
  /-- No frame of higher priority waits. -/
  above : ∀ ch, rank ch < rank f.channel → p.queues ch = []

/-- A search in priority order that finds nothing above a channel finds what is there. -/
theorem findSome?_priorityOrder {α : Type*} {g : ChannelId → Option α} (ch : ChannelId) {a : α}
    (hat : g ch = some a) (habove : ∀ ch', rank ch' < rank ch → g ch' = none) :
    priorityOrder.findSome? g = some a := by
  -- The channels before `ch` in the order are those of a smaller rank.
  obtain ⟨pre, post, hsplit, hnot⟩ := List.eq_append_cons_of_mem (mem_priorityOrder ch)
  rw [List.findSome?_eq_some_iff]
  refine ⟨pre, ch, post, hsplit, hat, fun ch' hmem => habove ch' ?_⟩
  have hpre : rank ch' < pre.length := by
    rw [rank, hsplit, List.idxOf_append_of_mem hmem]
    exact List.idxOf_lt_length_of_mem hmem
  have hch : rank ch = pre.length := by
    rw [rank, hsplit, List.idxOf_append_of_notMem hnot, List.idxOf_cons_self, Nat.add_zero]
  omega

namespace Pacer

variable {p : Pacer} {f : PacerFrame}

/-- A frame that is next up is at the front of its queue. -/
theorem NextUp.queues_eq (h : p.NextUp f) : ∃ rest, p.queues f.channel = f :: rest := by
  have hfront := h.front
  cases hq : p.queues f.channel with
  | nil => simp [hq] at hfront
  | cons g rest =>
    rw [hq, List.head?_cons, Option.some.injEq] at hfront
    exact ⟨rest, by rw [hfront]⟩

/-- Time does not change which frame is next up. -/
theorem NextUp.advance (h : p.NextUp f) (elapsedNs : UInt64) : (p.advance elapsedNs).NextUp f :=
  ⟨h.front, h.above⟩

/-- `dequeue` releases the frame that is next when the balance covers it. -/
theorem NextUp.dequeue (h : p.NextUp f) (hcost : f.cost ≤ p.tokenBytes) :
    p.dequeue.1 = some f := by
  obtain ⟨rest, hq⟩ := h.queues_eq
  unfold Pacer.dequeue
  dsimp only
  rw [findSome?_priorityOrder f.channel (a := (f.channel, f))]
  · simp only [hq]
    exact if_pos hcost
  · intro ch hlt
    simp only [h.above ch hlt]

/-- `drain_tick` releases the frame that is next when the balance covers it. -/
theorem NextUp.drainTick (h : p.NextUp f) (hp : p.Valid) (hcost : f.cost ≤ p.tokenBytes) :
    f ∈ p.drainTick.1.getD [] := by
  obtain ⟨rest, hq⟩ := h.queues_eq
  have hslot := hp.slot_le (hq ▸ List.mem_cons_self : f ∈ p.queues f.channel)
  have hpass : p.pass [] 0 = some (.pack f.channel f) := by
    apply findSome?_priorityOrder f.channel
    · simp only [passAt, hq]
      rw [if_neg (not_lt.mpr hcost), if_neg (Nat.not_lt.mpr hslot), if_neg (by simp)]
    · intro ch hlt
      simp only [passAt, h.above ch hlt]
  have hrel := released_release hq rfl hcost
  have hfuel : (p.release f.channel f).totalQueuedFrames < p.totalQueuedFrames := by
    rw [hrel.totalQueuedFrames, List.length_singleton]
    omega
  -- The rest of the tick only adds to the datagram that the first pass begins.
  obtain ⟨gs, hout⟩ : ∃ gs,
      (drainLoop p.totalQueuedFrames (p.release f.channel f) [f] (0 + f.slot)).1 = [f] ++ gs := by
    obtain ⟨gs, hout, -⟩ := drainLoop_spec (k := 0) (hrel.valid hp) hfuel
      (by omega : 0 + f.slot ≤ _) (by simp : [f] = [] → _)
      (fun _ hlt => absurd hlt (Nat.not_lt_zero _))
    exact ⟨gs, hout⟩
  have hdrain : p.drain.1 = f :: gs := by
    rw [drain, drainLoop, hpass]
    exact hout
  simp [Pacer.drainTick, hdrain]

/-- Five milliseconds fill the bucket to its cap. -/
theorem Sound.tokenBytes_advance (h : p.Sound) :
    (p.advance 5000000).tokenBytes = p.burstCapBytes := by
  have hgain : p.burstCapBytes = p.rateBps * 5000000 / 8000000000 := by
    rw [h.capped, burstCapForRate, burstToleranceMs]
    ring
  have htokens : 0 ≤ p.tokenBytes := h.conforming.tokens_nonneg
  change min (p.tokenBytes + p.rateBps * ((5000000 : ℕ) : ℚ) / 8000000000) _ = _
  apply min_eq_right
  push_cast
  linarith

/-- The cap covers a frame exactly when the rate is 1600 bits a second for each byte of it. -/
theorem Capped.cost_le_iff (h : p.Capped) :
    f.cost ≤ p.burstCapBytes ↔ 1600 * (f.data.length : ℚ) ≤ p.rateBps := by
  rw [h, burstCapForRate, burstToleranceMs, PacerFrame.cost]
  constructor <;> intro hle <;> linarith

/-- Time keeps a pacer sound. -/
theorem Sound.advance (h : p.Sound) (elapsedNs : UInt64) : (p.advance elapsedNs).Sound :=
  h.exec (e := .advance elapsedNs) trivial

/-- What is released after some time costs no more than the cap. -/
theorem Sound.cost_le_of_released (h : p.Sound) {elapsedNs : UInt64} {p' : Pacer}
    {fs : List PacerFrame} (hrel : Released (p.advance elapsedNs) p' fs) (hf : f ∈ fs) :
    f.cost ≤ p.burstCapBytes := by
  have hle : f.cost ≤ cost fs :=
    List.single_le_sum (by simpa using fun g _ => g.cost_nonneg) _ (List.mem_map_of_mem hf)
  -- The balance that covers all of them is at most the cap.
  have hcovered := hrel.covered (h.advance elapsedNs).conforming.tokens_nonneg
  rw [hrel.tokens] at hcovered
  have hcap : (p.advance elapsedNs).tokenBytes ≤ p.burstCapBytes := min_le_right _ _
  linarith

/-- A rate that a call sets is positive. -/
def RatePos : PacerEvent → Prop
  | .setRate rateBps => 0 < rateBps
  | _ => True

/-- A positive rate is not negative. -/
theorem RatePos.nonneg {e : PacerEvent} (h : RatePos e) : RateNonneg e := by
  cases e with
  | setRate rateBps => exact le_of_lt h
  | _ => trivial

end Pacer

/-- In every run with positive rates, the frame that is next in the priority order is released
after some time if and only if the rate is at least 1600 bits a second for each byte of it, and so
is the cost of the frame within the cap. -/
theorem released_iff_affordable (rate : ℚ) (hrate : 0 < rate) (es : List PacerEvent)
    (hes : ∀ e ∈ es, Pacer.RatePos e) :
    let p := (Pacer.new rate).after es
    ∀ f, p.NextUp f →
      ((∃ elapsedNs, (p.advance elapsedNs).dequeue.1 = some f) ↔
        1600 * (f.data.length : ℚ) ≤ p.rateBps) ∧
      ((∃ elapsedNs, f ∈ (p.advance elapsedNs).drainTick.1.getD []) ↔
        1600 * (f.data.length : ℚ) ≤ p.rateBps) ∧
      (f.cost ≤ p.burstCapBytes ↔ 1600 * (f.data.length : ℚ) ≤ p.rateBps) := by
  intro p f hnext
  have hp : p.Sound := (Pacer.Sound.new hrate.le).after fun e he => (hes e he).nonneg
  have hcap := hp.capped.cost_le_iff (f := f)
  -- Five milliseconds are enough when any time is.
  have hfull := hnext.advance 5000000
  refine ⟨⟨?_, fun h => ⟨5000000, ?_⟩⟩, ⟨?_, fun h => ⟨5000000, ?_⟩⟩, hcap⟩
  · rintro ⟨elapsedNs, hdeq⟩
    have hrel := Pacer.dequeue_spec (hp.advance elapsedNs).valid
    exact hcap.mp (hp.cost_le_of_released hrel (by simp [hdeq]))
  · exact hfull.dequeue (hp.tokenBytes_advance ▸ hcap.mpr h)
  · rintro ⟨elapsedNs, hmem⟩
    have hrel := (Pacer.drainTick_spec (hp.advance elapsedNs).valid).1
    exact hcap.mp (hp.cost_le_of_released hrel hmem)
  · exact hfull.drainTick (hp.advance _).valid (hp.tokenBytes_advance ▸ hcap.mpr h)

/-- A frame of five bytes at 8 kbit/s, for which the bucket is just large enough. -/
theorem released_iff_affordable_five :
    let p := (Pacer.new 8000).after [.enqueue ⟨2, [1, 2, 3, 4, 5]⟩]
    ∃ elapsedNs, (p.advance elapsedNs).dequeue.1 = some ⟨2, [1, 2, 3, 4, 5]⟩ := by
  intro p
  have hes : ∀ e ∈ [PacerEvent.enqueue ⟨2, [1, 2, 3, 4, 5]⟩], Pacer.RatePos e := by
    simp [Pacer.RatePos]
  have hnext : p.NextUp ⟨2, [1, 2, 3, 4, 5]⟩ := ⟨by decide +kernel, by decide +kernel⟩
  exact (released_iff_affordable 8000 (by norm_num) _ hes _ hnext).1.mpr (by decide +kernel)

/-- A frame of a thousand bytes, accepted at 150 kbit/s, is released after no time: the cap is under
94 bytes. -/
theorem thousand_bytes_never_released :
    let f : PacerFrame := ⟨0, List.replicate 1000 0⟩
    let p := (Pacer.new 150000).after [.enqueue f]
    ((Pacer.new 150000).enqueue f).1 = true ∧ p.NextUp f ∧ p.burstCapBytes < f.cost ∧
      ∀ elapsedNs, (p.advance elapsedNs).dequeue.1 ≠ some f ∧
        f ∉ (p.advance elapsedNs).drainTick.1.getD [] := by
  intro f
  have hlen : f.data.length = 1000 := List.length_replicate
  have hch : f.channel = 0 := rfl
  -- Only the length and the channel of the frame matter.
  clear_value f
  intro p
  have henqueue := Pacer.enqueue_of_le (p := .new 150000)
    (by rw [hlen]; decide : f.data.length ≤ maxFrameDataBytes)
  have hp : p.Sound := (Pacer.Sound.new (by norm_num)).after (by simp [Pacer.RateNonneg])
  have hafter : p = ((Pacer.new 150000).enqueue f).2 := rfl
  rw [henqueue] at hafter
  have hnext : p.NextUp f := by
    refine ⟨?_, fun ch hlt => ?_⟩
    · rw [hafter]
      simp [Pacer.new]
    · rw [hch] at hlt
      exact absurd hlt (Nat.not_lt_zero _)
  have hcap : p.burstCapBytes < f.cost := by
    rw [hafter, PacerFrame.cost, hlen]
    change burstCapForRate 150000 < (1000 : ℕ)
    decide +kernel
  refine ⟨by rw [henqueue], hnext, hcap, fun elapsedNs => ⟨fun hdeq => ?_, fun hmem => ?_⟩⟩
  · have hrel := Pacer.dequeue_spec (hp.advance elapsedNs).valid
    exact absurd (hp.cost_le_of_released hrel (by simp [hdeq])) (not_le.mpr hcap)
  · have hrel := (Pacer.drainTick_spec (hp.advance elapsedNs).valid).1
    exact absurd (hp.cost_le_of_released hrel hmem) (not_le.mpr hcap)

end LowBand.Lbtp
