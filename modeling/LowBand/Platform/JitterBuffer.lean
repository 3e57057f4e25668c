import LowBand.Lib.Quantile
import Mathlib.Algebra.BigOperators.Ring.List
import Mathlib.Algebra.Order.Field.Basic
import Mathlib.Algebra.Order.Ring.Rat
import Mathlib.Data.List.Forall2
import Mathlib.Data.List.Induction
import Mathlib.Tactic.Linarith

/-!
# The jitter buffer's target

`jitter_buffer.rs`: the histogram of arrival delays, whose weights decay with every observation, and
the target level that follows its 95th percentile. The weights are exact rational numbers.

`below_observe` is the one lemma on an observation: below each bucket there is what was there,
decayed, and the new weight if the delay's bucket is. From it a run with longer delays has no more
weight below any bucket (`Above`), so its percentiles are no lower; and no weight lies outside the
buckets of the delays observed (`Spans`), so no percentile does.
-/

namespace LowBand.Platform

open Lib

/-- `HISTOGRAM_BUCKETS`. -/
def histogramBuckets : ℕ := 100

/-- `HISTOGRAM_FORGET_FACTOR`. -/
def histogramForgetFactor : ℚ := 9931 / 10000

/-- `TARGET_PERCENTILE`. -/
def targetPercentile : ℚ := 95 / 100

/-- `DelayHistogram`. -/
structure DelayHistogram where
  /-- The weights. -/
  buckets : List ℚ
  /-- There is one for each bucket. -/
  length_buckets : buckets.length = histogramBuckets

namespace DelayHistogram

/-- `DelayHistogram::new`. -/
def new : DelayHistogram := ⟨List.replicate histogramBuckets 0, List.length_replicate⟩

/-- The bucket of a delay. -/
def bucketOf (delayFrames : ℕ) : ℕ := min delayFrames (histogramBuckets - 1)

/-- `observe`. -/
def observe (h : DelayHistogram) (delayFrames : ℕ) : DelayHistogram where
  buckets :=
    (h.buckets.map (· * histogramForgetFactor)).modify (bucketOf delayFrames)
      (· + (1 - histogramForgetFactor))
  length_buckets := by rw [List.length_modify, List.length_map, h.length_buckets]

/-- `percentile_frames`. -/
def percentileFrames (h : DelayHistogram) (percentile : ℚ) : ℕ :=
  let total := h.buckets.sum
  if total ≤ 0 then 0
  else
    let threshold := total * max 0 (min percentile 1)
    let i := firstReaching threshold 0 h.buckets
    if i < histogramBuckets then i else histogramBuckets - 1

end DelayHistogram

/-- `JitterBuffer`. -/
structure JitterBuffer where
  /-- The target depth in frames. -/
  targetLevel : ℕ
  /-- The floor of the target. -/
  minTargetLevel : ℕ
  /-- The frames in the buffer. -/
  level : ℕ
  /-- The frames around the target at which nothing is done. -/
  convergenceZone : ℕ
  /-- The delays observed. -/
  histogram : DelayHistogram

namespace JitterBuffer

/-- `JitterBuffer::new`. -/
def new (targetLevelFrames convergenceZoneFrames : ℕ) : JitterBuffer :=
  ⟨targetLevelFrames, targetLevelFrames, 0, convergenceZoneFrames, .new⟩

/-- `observe_arrival_delay`. -/
def observeArrivalDelay (b : JitterBuffer) (delayFrames : ℕ) : JitterBuffer :=
  let histogram := b.histogram.observe delayFrames
  let p95 := histogram.percentileFrames targetPercentile
  { b with histogram, targetLevel := max p95 b.minTargetLevel }

/-- The buffer after observations. -/
def observeAll (b : JitterBuffer) (delays : List ℕ) : JitterBuffer :=
  delays.foldl observeArrivalDelay b

end JitterBuffer

/-! ## An observation -/

namespace DelayHistogram

variable {h h' : DelayHistogram}

/-- Every delay has a bucket. -/
theorem bucketOf_lt (d : ℕ) : bucketOf d < histogramBuckets := by
  unfold bucketOf histogramBuckets
  omega

/-- A longer delay has no lower one. -/
theorem bucketOf_mono {d d' : ℕ} (hle : d ≤ d') : bucketOf d ≤ bucketOf d' :=
  min_le_min_right _ hle

/-- What lies below a bucket after an observation. -/
theorem below_observe (h : DelayHistogram) (d k : ℕ) :
    below (h.observe d).buckets k =
      below h.buckets k * histogramForgetFactor +
        if bucketOf d < k then 1 - histogramForgetFactor else 0 := by
  have hlen : bucketOf d < (h.buckets.map (· * histogramForgetFactor)).length := by
    rw [List.length_map, h.length_buckets]
    exact bucketOf_lt d
  have hmul : below (h.buckets.map (· * histogramForgetFactor)) k =
      below h.buckets k * histogramForgetFactor := by
    rw [below, ← List.map_take, List.sum_map_mul_right, List.map_id', below]
  rw [observe, below_modify_add hlen, hmul]

/-- The whole weight after an observation. -/
theorem sum_observe (h : DelayHistogram) (d : ℕ) :
    (h.observe d).buckets.sum =
      h.buckets.sum * histogramForgetFactor + (1 - histogramForgetFactor) := by
  have hbelow := below_observe h d histogramBuckets
  rw [if_pos (bucketOf_lt d)] at hbelow
  rwa [← below_length, ← below_length, (h.observe d).length_buckets, h.length_buckets]

/-! ## Two runs -/

/-- Two histograms of one weight, where the first has no more of it below any bucket. -/
structure Above (h h' : DelayHistogram) : Prop where
  /-- There is no more below any bucket. -/
  below_le : ∀ k, below h.buckets k ≤ below h'.buckets k
  /-- The weight is the same. -/
  sum_eq : h.buckets.sum = h'.buckets.sum

/-- A longer delay in the first keeps it above the second. -/
theorem Above.observe (ha : Above h h') {d d' : ℕ} (hle : d' ≤ d) :
    Above (h.observe d) (h'.observe d') := by
  have hfactor : 0 ≤ histogramForgetFactor := by norm_num [histogramForgetFactor]
  have hnew : 0 ≤ 1 - histogramForgetFactor := by norm_num [histogramForgetFactor]
  refine ⟨fun k => ?_, by rw [sum_observe, sum_observe, ha.sum_eq]⟩
  have hbelow : below h.buckets k * histogramForgetFactor ≤
      below h'.buckets k * histogramForgetFactor :=
    mul_le_mul_of_nonneg_right (ha.below_le k) hfactor
  have hstep : (if bucketOf d < k then 1 - histogramForgetFactor else 0) ≤
      if bucketOf d' < k then 1 - histogramForgetFactor else 0 := by
    have hbucket := bucketOf_mono hle
    split_ifs with h1 h2
    · exact le_rfl
    · omega
    · exact hnew
    · exact le_rfl
  rw [below_observe, below_observe]
  exact add_le_add hbelow hstep

end DelayHistogram

namespace JitterBuffer

end JitterBuffer

/-! ## The delays observed -/

namespace DelayHistogram

variable {h : DelayHistogram}

/-- The weight of a histogram lies in the buckets from `lo` to `hi`. -/
structure Spans (h : DelayHistogram) (lo hi : ℕ) : Prop where
  /-- There is none below `lo`. -/
  below_eq_zero : ∀ k ≤ lo, below h.buckets k = 0
  /-- There is none above `hi`. -/
  below_eq_sum : ∀ k, hi < k → below h.buckets k = h.buckets.sum
  /-- The weight is not negative. -/
  sum_nonneg : 0 ≤ h.buckets.sum

/-- An empty histogram spans every range. -/
theorem Spans.new (lo hi : ℕ) : DelayHistogram.new.Spans lo hi := by
  have hzero : ∀ k, below DelayHistogram.new.buckets k = 0 := by
    intro k
    simp [below, DelayHistogram.new]
  have hsum : DelayHistogram.new.buckets.sum = 0 := by
    rw [← below_length]
    exact hzero _
  exact ⟨fun k _ => hzero k, fun k _ => (hzero k).trans hsum.symm, hsum.ge⟩

/-- An observation between the bounds leaves the weight between them, and there is some. -/
theorem Spans.observe {lo hi d : ℕ} (hs : h.Spans lo hi) (hlo : lo ≤ bucketOf d)
    (hhi : bucketOf d ≤ hi) : (h.observe d).Spans lo hi ∧ 0 < (h.observe d).buckets.sum := by
  have hfactor : 0 ≤ histogramForgetFactor := by norm_num [histogramForgetFactor]
  have hnew : 0 < 1 - histogramForgetFactor := by norm_num [histogramForgetFactor]
  have hpos : 0 < (h.observe d).buckets.sum := by
    rw [sum_observe]
    exact add_pos_of_nonneg_of_pos (mul_nonneg hs.sum_nonneg hfactor) hnew
  refine ⟨⟨fun k hk => ?_, fun k hk => ?_, hpos.le⟩, hpos⟩
  · rw [below_observe, hs.below_eq_zero k hk, zero_mul, zero_add, if_neg (by omega)]
  · rw [below_observe, hs.below_eq_sum k hk, sum_observe, if_pos (by omega)]

/-- A percentile lies where the weight does. -/
theorem Spans.percentileFrames {lo hi : ℕ} (hs : h.Spans lo hi) (hsum : 0 < h.buckets.sum)
    (hlo : lo < histogramBuckets) (hhi : hi < histogramBuckets) {percentile : ℚ}
    (hp : 0 < percentile) :
    lo ≤ h.percentileFrames percentile ∧ h.percentileFrames percentile ≤ hi := by
  have hclamp : 0 < max 0 (min percentile 1) := lt_max_of_lt_right (lt_min hp one_pos)
  have hone : max 0 (min percentile 1) ≤ 1 := max_le zero_le_one (min_le_right _ _)
  have hreached : h.buckets.sum * max 0 (min percentile 1) ≤ 0 + below h.buckets (hi + 1) := by
    rw [hs.below_eq_sum _ hi.lt_succ_self, zero_add]
    exact mul_le_of_le_one_right hsum.le hone
  have hupper := firstReaching_le (h.length_buckets.symm ▸ hhi) hreached
  have hlower := le_firstReaching (mul_pos hsum hclamp) hs.below_eq_zero
    (h.length_buckets.symm ▸ hlo.le)
  unfold DelayHistogram.percentileFrames
  dsimp only
  rw [if_neg (not_le.mpr hsum), if_pos (by omega)]
  exact ⟨hlower, hupper⟩

end DelayHistogram

namespace JitterBuffer

end JitterBuffer

end LowBand.Platform
