import LowBand.Lib.Ewma
import Mathlib.Algebra.BigOperators.Group.List.Basic
import Mathlib.Algebra.Order.Ring.Rat
import Mathlib.Data.List.Chain

/-!
# The delay-gradient estimator

`delay.rs` fits a line to the one-way delays of acknowledged packets. Its documentation takes the
differences of the timestamps as signed numbers, and `observe` takes them with `saturating_sub`. The
arithmetic is exact on rational numbers.

The documented quantities are functions of the differences, so one definition with the subtraction
as a parameter (`owdDeltas`) gives both. A truncated difference is never below the signed one, and
what the estimator accumulates is strictly monotone in it: an interval that is truncated once is
never made up for. Hence the estimator computes what is documented exactly when no packet has a
timestamp below that of the packet before (`observeAll_documented_iff`).
-/

namespace LowBand.Lbtp

open Lib

/-- `TRENDLINE_WINDOW_SIZE`. -/
def trendlineWindowSize : ℕ := 20

/-- `TRENDLINE_SMOOTHING_ALPHA`. -/
def trendlineSmoothingAlpha : ℚ := 9 / 10

/-- `OVERUSE_THRESHOLD_GAMMA_US_PER_MS`. -/
def overuseThresholdGammaUsPerMs : ℚ := 125 / 10

/-- `MIN_WINDOW_FOR_SLOPE`. -/
def minWindowForSlope : ℕ := 2

/-- `BandwidthUsage`. -/
inductive BandwidthUsage where
  | underuse
  | normal
  | overuse
deriving DecidableEq

/-- `DelayGradientEstimator`. -/
structure DelayGradientEstimator where
  /-- The points of the regression, the oldest first. -/
  window : List (ℚ × ℚ)
  /-- The average of the delay deltas. -/
  smoothedDeltaUs : ℚ
  /-- The sum of the averages. -/
  accumulatedOwdUs : ℚ
  /-- The sum of the send intervals. -/
  accumulatedSendMs : ℚ
  /-- When the previous packet was sent. -/
  prevSendUs : Option ℕ
  /-- When the previous packet was received. -/
  prevRecvUs : Option ℕ
  /-- The slope of the line. -/
  slope : ℚ
  /-- What the slope says about the link. -/
  usage : BandwidthUsage

namespace DelayGradientEstimator

/-- `DelayGradientEstimator::new`. -/
def new : DelayGradientEstimator := ⟨[], 0, 0, 0, none, none, 0, .normal⟩

/-- `compute_slope`. -/
def computeSlope (window : List (ℚ × ℚ)) : ℚ :=
  if window.length < minWindowForSlope then 0
  else
    let n : ℚ := window.length
    let xMean := (window.map fun point => point.1).sum / n
    let yMean := (window.map fun point => point.2).sum / n
    let numerator := (window.map fun point => (point.1 - xMean) * (point.2 - yMean)).sum
    let denominator := (window.map fun point => (point.1 - xMean) ^ 2).sum
    if denominator < 1 / 10 ^ 10 then 0 else numerator / denominator

/-- The class of a slope. -/
def classify (slope gammaMultiplier : ℚ) : BandwidthUsage :=
  let gamma := overuseThresholdGammaUsPerMs * max gammaMultiplier 0
  if slope > gamma then .overuse else if slope < -gamma then .underuse else .normal

/-- `observe`. -/
def observe (e : DelayGradientEstimator) (sendTimeUs recvTimeUs : ℕ) (gammaMultiplier : ℚ) :
    BandwidthUsage × DelayGradientEstimator :=
  let e := match e.prevSendUs, e.prevRecvUs with
    | some prevS, some prevR =>
      let sendDeltaUs : ℚ := (sendTimeUs - prevS : ℕ)
      let recvDeltaUs : ℚ := (recvTimeUs - prevR : ℕ)
      let owdDeltaUs := recvDeltaUs - sendDeltaUs
      let smoothedDeltaUs :=
        trendlineSmoothingAlpha * e.smoothedDeltaUs + (1 - trendlineSmoothingAlpha) * owdDeltaUs
      let accumulatedSendMs := e.accumulatedSendMs + sendDeltaUs / 1000
      let accumulatedOwdUs := e.accumulatedOwdUs + smoothedDeltaUs
      let window := e.window ++ [(accumulatedSendMs, accumulatedOwdUs)]
      let window := if window.length > trendlineWindowSize then window.tail else window
      let slope := computeSlope window
      { e with
        window, smoothedDeltaUs, accumulatedOwdUs, accumulatedSendMs, slope
        usage := classify slope gammaMultiplier }
    -- The first packet only starts the clocks.
    | _, _ => e
  (e.usage, { e with prevSendUs := some sendTimeUs, prevRecvUs := some recvTimeUs })

end DelayGradientEstimator

/-- The arguments of a call to `observe`. -/
structure AckedPacket where
  /-- When the packet was sent. -/
  sendTimeUs : ℕ
  /-- When it was received. -/
  recvTimeUs : ℕ
  /-- The multiplier of the threshold. -/
  gammaMultiplier : ℚ

/-- The estimator after packets. -/
def DelayGradientEstimator.observeAll (e : DelayGradientEstimator) (packets : List AckedPacket) :
    DelayGradientEstimator :=
  packets.foldl (fun e p => (e.observe p.sendTimeUs p.recvTimeUs p.gammaMultiplier).2) e

/-! ## The documented quantities -/

section Documented

variable (sub : ℕ → ℕ → ℚ)

/-- The deltas `(recv_i - recv_{i-1}) - (send_i - send_{i-1})`, for a subtraction. -/
def owdDeltas : AckedPacket → List AckedPacket → List ℚ
  | _, [] => []
  | prev, p :: packets =>
    (sub p.recvTimeUs prev.recvTimeUs - sub p.sendTimeUs prev.sendTimeUs) :: owdDeltas p packets

/-- The sum of the send intervals, for a subtraction. -/
def sendIntervals : AckedPacket → List AckedPacket → ℚ
  | _, [] => 0
  | prev, p :: packets => sub p.sendTimeUs prev.sendTimeUs + sendIntervals p packets

end Documented

/-- The subtraction of the documentation. -/
def signedSub (later earlier : ℕ) : ℚ := later - earlier

/-- `saturating_sub`. -/
def saturatingSub (later earlier : ℕ) : ℚ := (later - earlier : ℕ)

/-- `smoothed_i = α * smoothed_{i-1} + (1 - α) * delta_i`, from a value before the deltas. -/
def smoothed (start : ℚ) (deltas : List ℚ) : ℚ := ewma (1 - trendlineSmoothingAlpha) start deltas

/-- The running sum of the smoothed deltas. -/
def accumulated (start : ℚ) : List ℚ → ℚ
  | [] => 0
  | delta :: deltas => smoothed start [delta] + accumulated (smoothed start [delta]) deltas

/-- No packet has a timestamp below that of the packet before. -/
def InOrder (packets : List AckedPacket) : Prop :=
  packets.IsChain fun p q => p.sendTimeUs ≤ q.sendTimeUs ∧ p.recvTimeUs ≤ q.recvTimeUs

/-- The signed intervals telescope. -/
theorem sendIntervals_signedSub (first : AckedPacket) (packets : List AckedPacket) :
    sendIntervals signedSub first packets =
      ((first :: packets).getLast (List.cons_ne_nil _ _)).sendTimeUs - first.sendTimeUs := by
  induction packets generalizing first with
  | nil => simp [sendIntervals]
  | cons p packets ih =>
    rw [sendIntervals, ih, List.getLast_cons_cons, signedSub]
    ring

/-- The signed deltas telescope: what two packets in the wrong order add, they take away. -/
theorem sum_owdDeltas_signedSub (first : AckedPacket) (packets : List AckedPacket) :
    (owdDeltas signedSub first packets).sum =
      ((((first :: packets).getLast (List.cons_ne_nil _ _)).recvTimeUs : ℚ) - first.recvTimeUs) -
        (((first :: packets).getLast (List.cons_ne_nil _ _)).sendTimeUs - first.sendTimeUs) := by
  induction packets generalizing first with
  | nil => simp [owdDeltas]
  | cons p packets ih =>
    rw [owdDeltas, List.sum_cons, ih, List.getLast_cons_cons, signedSub, signedSub]
    ring

/-- A truncated difference is at least the signed one. -/
theorem signedSub_le_saturatingSub (later earlier : ℕ) :
    signedSub later earlier ≤ saturatingSub later earlier := by
  rw [signedSub, saturatingSub, sub_le_iff_le_add]
  exact_mod_cast le_tsub_add

/-- The two differences agree exactly when there is nothing to truncate. -/
theorem signedSub_eq_saturatingSub_iff (later earlier : ℕ) :
    signedSub later earlier = saturatingSub later earlier ↔ earlier ≤ later := by
  rw [signedSub, saturatingSub, sub_eq_iff_eq_add]
  norm_cast
  omega

/-- Truncated intervals add up to no less than the signed ones, and to as much exactly when no
packet was sent before the one before it. -/
theorem sendIntervals_le_and_eq_iff (first : AckedPacket) (packets : List AckedPacket) :
    sendIntervals signedSub first packets ≤ sendIntervals saturatingSub first packets ∧
      (sendIntervals signedSub first packets = sendIntervals saturatingSub first packets ↔
        (first :: packets).IsChain fun p q => p.sendTimeUs ≤ q.sendTimeUs) := by
  induction packets generalizing first with
  | nil => simp [sendIntervals]
  | cons p packets ih =>
    obtain ⟨hle, hiff⟩ := ih p
    have hstep := signedSub_le_saturatingSub p.sendTimeUs first.sendTimeUs
    refine ⟨add_le_add hstep hle, ?_⟩
    rw [List.isChain_cons_cons, ← signedSub_eq_saturatingSub_iff, ← hiff]
    exact add_eq_add_iff_eq_and_eq hstep hle

/-- When the packets were sent in order, a truncated delta is at least the signed one, and all agree
exactly when the packets were received in order too. -/
theorem owdDeltas_le_and_eq_iff (first : AckedPacket) (packets : List AckedPacket)
    (h : (first :: packets).IsChain fun p q => p.sendTimeUs ≤ q.sendTimeUs) :
    List.Forall₂ (· ≤ ·) (owdDeltas signedSub first packets)
        (owdDeltas saturatingSub first packets) ∧
      (owdDeltas signedSub first packets = owdDeltas saturatingSub first packets ↔
        InOrder (first :: packets)) := by
  induction packets generalizing first with
  | nil => simp [owdDeltas, InOrder]
  | cons p packets ih =>
    obtain ⟨hsend, hrest⟩ := List.isChain_cons_cons.mp h
    obtain ⟨hle, hiff⟩ := ih p hrest
    have hrecv := signedSub_le_saturatingSub p.recvTimeUs first.recvTimeUs
    -- nothing is truncated on the side of the sender, which is subtracted
    have hsub := (signedSub_eq_saturatingSub_iff p.sendTimeUs first.sendTimeUs).mpr hsend
    refine ⟨.cons (sub_le_sub hrecv hsub.ge) hle, ?_⟩
    rw [InOrder, List.isChain_cons_cons, and_iff_right hsend, ← signedSub_eq_saturatingSub_iff]
    rw [owdDeltas, owdDeltas, List.cons.injEq, hsub, sub_left_inj, hiff]
    rfl

namespace DelayGradientEstimator

/-- What a run adds to the sums, from a state after a packet. -/
theorem observeAll_eq (e : DelayGradientEstimator) (prev : AckedPacket)
    (hsend : e.prevSendUs = some prev.sendTimeUs) (hrecv : e.prevRecvUs = some prev.recvTimeUs)
    (packets : List AckedPacket) :
    (e.observeAll packets).accumulatedSendMs =
        e.accumulatedSendMs + sendIntervals saturatingSub prev packets / 1000 ∧
      (e.observeAll packets).smoothedDeltaUs =
        smoothed e.smoothedDeltaUs (owdDeltas saturatingSub prev packets) ∧
      (e.observeAll packets).accumulatedOwdUs =
        e.accumulatedOwdUs +
          accumulated e.smoothedDeltaUs (owdDeltas saturatingSub prev packets) := by
  -- By induction on the packets: each is the previous one of the next.
  induction packets generalizing e prev with
  | nil => simp [observeAll, sendIntervals, owdDeltas, smoothed, accumulated]
  | cons p packets ih =>
    obtain ⟨hx, hsmoothed, hy⟩ :=
      ih (e.observe p.sendTimeUs p.recvTimeUs p.gammaMultiplier).2 p rfl rfl
    -- One step of the smoothing is what `observe` does.
    have hfirst : smoothed e.smoothedDeltaUs [saturatingSub p.recvTimeUs prev.recvTimeUs -
          saturatingSub p.sendTimeUs prev.sendTimeUs] =
        (e.observe p.sendTimeUs p.recvTimeUs p.gammaMultiplier).2.smoothedDeltaUs := by
      simp [observe, hsend, hrecv, smoothed, saturatingSub]
    refine ⟨hx.trans ?_, hsmoothed.trans ?_, hy.trans ?_⟩
    · simp only [observe, hsend, hrecv, sendIntervals, saturatingSub]
      ring
    · rw [← hfirst]
      rfl
    · rw [owdDeltas, accumulated, hfirst, ← add_assoc]
      simp only [observe, hsend, hrecv]

/-- The estimator computes what is documented, and its deltas leave no bias, exactly when the
packets are in order. -/
theorem observeAll_documented_iff (first : AckedPacket) (packets : List AckedPacket) :
    (let e := new.observeAll (first :: packets)
     let last := (first :: packets).getLast (List.cons_ne_nil _ _)
     let deltas := owdDeltas signedSub first packets
     e.accumulatedSendMs = ((last.sendTimeUs : ℚ) - first.sendTimeUs) / 1000 ∧
       e.smoothedDeltaUs = smoothed 0 deltas ∧ e.accumulatedOwdUs = accumulated 0 deltas ∧
       (owdDeltas saturatingSub first packets).sum =
         ((last.recvTimeUs : ℚ) - first.recvTimeUs) -
           ((last.sendTimeUs : ℚ) - first.sendTimeUs)) ↔
      InOrder (first :: packets) := by
  obtain ⟨hx, hsmoothed, hy⟩ := observeAll_eq
    (new.observe first.sendTimeUs first.recvTimeUs first.gammaMultiplier).2 first rfl rfl packets
  change (new.observeAll (first :: packets)).accumulatedSendMs = 0 + _ at hx
  change (new.observeAll (first :: packets)).smoothedDeltaUs = smoothed 0 _ at hsmoothed
  change (new.observeAll (first :: packets)).accumulatedOwdUs = 0 + accumulated 0 _ at hy
  -- The first packet only sets the reference times.
  simp only [hx, hsmoothed, hy, zero_add]
  rw [← sum_owdDeltas_signedSub, ← sendIntervals_signedSub]
  obtain ⟨-, hsend⟩ := sendIntervals_le_and_eq_iff first packets
  constructor
  · -- the x-axis gives the order of sending, and then the average gives the order of receiving
    rintro ⟨hsum, haverage, -, -⟩
    have hchain := hsend.mp (by linarith)
    obtain ⟨hle, hdeltas⟩ := owdDeltas_le_and_eq_iff first packets hchain
    have halpha : 0 < 1 - trendlineSmoothingAlpha ∧ 1 - trendlineSmoothingAlpha < 1 := by
      norm_num [trendlineSmoothingAlpha]
    exact hdeltas.mp ((ewma_eq_iff_of_le halpha.1 halpha.2 le_rfl hle).mp haverage.symm).2
  -- With both orders kept nothing is cut off at zero.
  · intro horder
    have hchain := horder.imp fun _ _ h => h.1
    have hdeltas := (owdDeltas_le_and_eq_iff first packets hchain).2.mpr horder
    rw [hdeltas, hsend.mpr hchain]
    exact ⟨rfl, rfl, rfl, rfl⟩

/-- The third packet was sent before the second and received after it. The estimator counts 4 ms of
sending in 3 ms, and its deltas are a millisecond too low in sum. -/
theorem observeAll_swapped :
    let first : AckedPacket := ⟨0, 0, 1⟩
    let packets : List AckedPacket := [⟨2000, 2000, 1⟩, ⟨1000, 2100, 1⟩, ⟨3000, 3000, 1⟩]
    let e := new.observeAll (first :: packets)
    e.accumulatedSendMs = 4 ∧ ((3000 : ℚ) - 0) / 1000 = 3 ∧
      e.smoothedDeltaUs ≠ smoothed 0 (owdDeltas signedSub first packets) ∧
      (owdDeltas saturatingSub first packets).sum = -1000 ∧
      (owdDeltas signedSub first packets).sum = 0 := by
  decide +kernel

end DelayGradientEstimator

end LowBand.Lbtp
