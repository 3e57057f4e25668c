import LowBand.Lib.Ewma
import Mathlib.Algebra.Order.Archimedean.Basic
import Mathlib.Algebra.Order.Ring.Rat

/-!
# Sizing forward error correction

`fec.rs` fits a Gilbert-Elliott model of the channel to the packets that were received and lost, and
derives the ratio of repair packets from it. The arithmetic is exact on rational numbers.

The estimator's averages are exponential averages of the packets and of the bursts that a reception
ended (`observeAll_eq`). The transition probability `a` that it computes from them is at most one
exactly when the two averages agree well enough (`leaveGood_mem_iff`): a long outage raises the loss
rate with every packet and the burst length only at its end. `probabilities_iff` says for which
packets all that is computed is a probability.

The fitter counts the runs of each window of acknowledgements. A cut inside a run makes it two
(`runsOf_append`), so the windows give what the whole trace gives exactly when every cut is between
different outcomes (`ingestAll_eq_ingest_iff`).
-/

namespace LowBand.Lbtp

open Lib

/-- `f64::EPSILON`. -/
def epsilon : ℚ := 1 / 2 ^ 52

/-- `MIN_FEC_RATIO`. -/
def minFecRatio : ℚ := 5 / 100

/-- `MAX_FEC_RATIO`. -/
def maxFecRatio : ℚ := 50 / 100

/-- `REF_BLOCK_SYMBOLS`. -/
def refBlockSymbols : ℚ := 32

/-- `MIN_OBS_FOR_ESTIMATE`. -/
def minObsForEstimate : ℕ := 30

/-- `MIN_RUNS_FOR_ESTIMATE`. -/
def minRunsForEstimate : ℕ := 8

/-- `GilbertElliottParams`. -/
structure GilbertElliottParams where
  /-- The probability to leave the good state. -/
  a : ℚ
  /-- The probability to leave the bad state. -/
  b : ℚ
  /-- The probability of a loss in the good state. -/
  p : ℚ
  /-- The probability of a loss in the bad state. -/
  q : ℚ

namespace GilbertElliottParams

/-- `mean_loss_rate`. -/
def meanLossRate (g : GilbertElliottParams) : ℚ :=
  if g.a + g.b < epsilon then 0
  else
    let piB := g.a / (g.a + g.b)
    let piG := 1 - piB
    piB * g.q + piG * g.p

/-- `mean_burst_len`, where `none` is infinity. -/
def meanBurstLen (g : GilbertElliottParams) : Option ℚ := if g.b > 0 then some (1 / g.b) else none

end GilbertElliottParams

/-- The ratio of both `fec_ratio`, from a loss rate and a burst length. -/
def fecRatioFrom (lossRate burstLen : ℚ) : ℚ :=
  let loss := max 0 (min lossRate (99 / 100))
  let burst := max burstLen 1
  let independent := loss / (1 - loss)
  let burstCoverage := min burst refBlockSymbols / refBlockSymbols
  max minFecRatio (min (max independent burstCoverage) maxFecRatio)

/-! ## The estimator -/

/-- `GilbertElliottEstimator`. -/
structure GilbertElliottEstimator where
  /-- The average of the losses. -/
  lossRate : ℚ
  /-- The average length of a burst. -/
  meanBurstLen : ℚ
  /-- The packets observed. -/
  nObs : ℕ
  /-- The last packet was lost. -/
  inLossRun : Bool
  /-- The packets lost since the last one received. -/
  currentRunLen : ℕ
  /-- The weight of a packet. -/
  alphaLoss : ℚ
  /-- The weight of a burst. -/
  alphaBurst : ℚ

namespace GilbertElliottEstimator

/-- `with_alphas`. -/
def withAlphas (alphaLoss alphaBurst : ℚ) : GilbertElliottEstimator :=
  ⟨0, 1, 0, false, 0, alphaLoss, alphaBurst⟩

/-- `GilbertElliottEstimator::new`. -/
def new : GilbertElliottEstimator := withAlphas (5 / 100) (25 / 100)

/-- `saturating_add(1)` on the length of a run. -/
def longer (runLen : ℕ) : ℕ := min (runLen + 1) (2 ^ 32 - 1)

/-- `observe`. -/
def observe (e : GilbertElliottEstimator) (received : Bool) : GilbertElliottEstimator :=
  let lossIndicator : ℚ := if received then 0 else 1
  let e := { e with
    nObs := e.nObs + 1
    lossRate := (1 - e.alphaLoss) * e.lossRate + e.alphaLoss * lossIndicator }
  if received then
    { e with
      -- Only a reception moves the average, by the burst that it ends.
      meanBurstLen :=
        if e.inLossRun ∧ e.currentRunLen > 0 then
          (1 - e.alphaBurst) * e.meanBurstLen + e.alphaBurst * e.currentRunLen
        else e.meanBurstLen
      inLossRun := false
      currentRunLen := 0 }
  else { e with inLossRun := true, currentRunLen := longer e.currentRunLen }

/-- The estimator after packets. -/
def observeAll (e : GilbertElliottEstimator) (outcomes : List Bool) : GilbertElliottEstimator :=
  outcomes.foldl observe e

/-- `params`. -/
def params (e : GilbertElliottEstimator) : Option GilbertElliottParams :=
  if e.nObs < minObsForEstimate then none
  else
    let l := max 0 (min e.lossRate (1 - epsilon))
    let b := 1 / max e.meanBurstLen 1
    let a := l * b / max (1 - l) epsilon
    some ⟨a, b, 0, 1⟩

/-- `fec_ratio`. -/
def fecRatio (e : GilbertElliottEstimator) : ℚ :=
  if e.nObs < minObsForEstimate then minFecRatio else fecRatioFrom e.lossRate e.meanBurstLen

end GilbertElliottEstimator

/-! ## The fitter -/

/-- `BurstStatsFitter`. -/
structure BurstStatsFitter where
  /-- The packets received. -/
  goodRunSum : ℕ
  /-- The runs of packets received. -/
  goodRunCount : ℕ
  /-- The packets lost. -/
  badRunSum : ℕ
  /-- The runs of packets lost. -/
  badRunCount : ℕ
deriving DecidableEq

namespace BurstStatsFitter

/-- `BurstStatsFitter::new`. -/
def new : BurstStatsFitter := ⟨0, 0, 0, 0⟩

/-- `observe_good_run`. -/
def observeGoodRun (f : BurstStatsFitter) (len : ℕ) : BurstStatsFitter :=
  if len > 0 then
    { f with goodRunSum := f.goodRunSum + len, goodRunCount := f.goodRunCount + 1 }
  else f

/-- `observe_bad_run`. -/
def observeBadRun (f : BurstStatsFitter) (len : ℕ) : BurstStatsFitter :=
  if len > 0 then { f with badRunSum := f.badRunSum + len, badRunCount := f.badRunCount + 1 }
  else f

/-- `ingest_ack_run_lengths`. -/
def ingestAckRunLengths (f : BurstStatsFitter) (runs : List (ℕ × ℕ)) : BurstStatsFitter :=
  runs.foldl (fun f run => (f.observeGoodRun run.1).observeBadRun run.2) f

/-- `run_pair_count`. -/
def runPairCount (f : BurstStatsFitter) : ℕ := min f.goodRunCount f.badRunCount

/-- `params`. -/
def params (f : BurstStatsFitter) : Option GilbertElliottParams :=
  if f.runPairCount < minRunsForEstimate then none
  else
    let meanGood : ℚ := f.goodRunSum / f.goodRunCount
    let meanBad : ℚ := f.badRunSum / f.badRunCount
    some ⟨1 / max meanGood 1, 1 / max meanBad 1, 0, 1⟩

/-- `fec_ratio`; an infinite burst covers the reference block. -/
def fecRatio (f : BurstStatsFitter) : ℚ :=
  match f.params with
  | none => minFecRatio
  | some g => fecRatioFrom g.meanLossRate (g.meanBurstLen.getD refBlockSymbols)

end BurstStatsFitter

/-- The ratio stays between its bounds. -/
theorem fecRatioFrom_mem (lossRate burstLen : ℚ) :
    fecRatioFrom lossRate burstLen ∈ Set.Icc minFecRatio maxFecRatio := by
  have hle : minFecRatio ≤ maxFecRatio := by norm_num [minFecRatio, maxFecRatio]
  exact ⟨le_max_left _ _, max_le hle (min_le_right _ _)⟩

/-- The ratio without an estimate is within the bounds. -/
theorem minFecRatio_mem : minFecRatio ∈ Set.Icc minFecRatio maxFecRatio :=
  ⟨le_rfl, by norm_num [minFecRatio, maxFecRatio]⟩

/-- The inverse of a length of at least one is a probability. -/
theorem one_div_max_mem (x : ℚ) : 1 / max x 1 ∈ Set.Icc 0 1 := by
  have hone : (1 : ℚ) ≤ max x 1 := le_max_right _ _
  have hpos : (0 : ℚ) < max x 1 := by linarith
  exact ⟨by positivity, (div_le_one hpos).mpr hone⟩

/-! ## What the estimator averages -/

/-- The losses as numbers. -/
def lossIndicators (outcomes : List Bool) : List ℚ := outcomes.map fun received =>
  if received then 0 else 1

/-- The lengths of the bursts that a reception ended, when a burst of `run` packets is going on. -/
def finishedBursts : ℕ → List Bool → List ℚ
  | _, [] => []
  | run, true :: outcomes =>
    if 0 < run then run :: finishedBursts 0 outcomes else finishedBursts 0 outcomes
  | run, false :: outcomes => finishedBursts (GilbertElliottEstimator.longer run) outcomes

/-- The exponential average of the losses. -/
def lossAverage (alphaLoss : ℚ) (outcomes : List Bool) : ℚ :=
  ewma alphaLoss 0 (lossIndicators outcomes)

/-- The exponential average of the lengths of bursts. -/
def burstAverage (alphaBurst : ℚ) (outcomes : List Bool) : ℚ :=
  ewma alphaBurst 1 (finishedBursts 0 outcomes)

namespace GilbertElliottEstimator

/-- The estimator's averages, from any state whose burst is as long as it says. -/
theorem observeAll_eq {e : GilbertElliottEstimator} (h : e.inLossRun = true ↔ 0 < e.currentRunLen)
    (outcomes : List Bool) :
    (e.observeAll outcomes).lossRate = ewma e.alphaLoss e.lossRate (lossIndicators outcomes) ∧
      (e.observeAll outcomes).meanBurstLen =
        ewma e.alphaBurst e.meanBurstLen (finishedBursts e.currentRunLen outcomes) ∧
      (e.observeAll outcomes).nObs = e.nObs + outcomes.length := by
  -- By induction on the outcomes, from any state whose flag agrees with its run length.
  induction outcomes generalizing e with
  | nil => exact ⟨rfl, rfl, rfl⟩
  | cons received outcomes ih =>
    cases received with
    | true =>
      obtain ⟨hloss, hburst, hobs⟩ := @ih (e.observe true) (by simp [observe])
      refine ⟨hloss, hburst.trans ?_, hobs.trans ?_⟩
      · -- the flag and the length of the burst agree, so one of them decides
        by_cases hrun : 0 < e.currentRunLen
        · simp [observe, finishedBursts, hrun, h.mpr hrun]
        · simp [observe, finishedBursts, hrun]
      · rw [List.length_cons]
        change e.nObs + 1 + outcomes.length = e.nObs + (outcomes.length + 1)
        omega
    -- A loss only makes the current burst longer.
    | false =>
      obtain ⟨hloss, hburst, hobs⟩ := @ih (e.observe false) (by simp [observe, longer])
      refine ⟨hloss, hburst, hobs.trans ?_⟩
      rw [List.length_cons]
      change e.nObs + 1 + outcomes.length = e.nObs + (outcomes.length + 1)
      omega

end GilbertElliottEstimator

/-- The losses are between zero and one. -/
theorem lossIndicators_mem {outcomes : List Bool} :
    ∀ x ∈ lossIndicators outcomes, x ∈ Set.Icc (0 : ℚ) 1 := by
  intro x hx
  obtain ⟨received, -, rfl⟩ := List.mem_map.mp hx
  cases received <;> norm_num

/-- A finished burst has a packet, and no more than its counter holds. -/
theorem finishedBursts_mem {run : ℕ} (h : run ≤ 2 ^ 32 - 1) {outcomes : List Bool} :
    ∀ x ∈ finishedBursts run outcomes, x ∈ Set.Icc (1 : ℚ) (2 ^ 32 - 1) := by
  induction outcomes generalizing run with
  | nil => simp [finishedBursts]
  | cons received outcomes ih =>
    cases received with
    | true =>
      rw [finishedBursts]
      split
      · next hrun =>
        refine List.forall_mem_cons.mpr ⟨⟨by exact_mod_cast hrun, ?_⟩, ih (Nat.zero_le _)⟩
        have hcast : (run : ℚ) ≤ ((2 ^ 32 - 1 : ℕ) : ℚ) := by exact_mod_cast h
        norm_num at hcast ⊢
        exact hcast
      · exact ih (Nat.zero_le _)
    | false => exact ih (min_le_right _ _)

/-- The average of the losses is between zero and one. -/
theorem lossAverage_mem {alphaLoss : ℚ} (h0 : 0 < alphaLoss) (h1 : alphaLoss < 1)
    (outcomes : List Bool) : lossAverage alphaLoss outcomes ∈ Set.Icc 0 1 :=
  ewma_mem_Icc h0 h1 ⟨le_rfl, zero_le_one⟩ lossIndicators_mem

/-- The average of the bursts is at least one, and no more than the counter of a burst holds. -/
theorem burstAverage_mem {alphaBurst : ℚ} (h0 : 0 < alphaBurst) (h1 : alphaBurst < 1)
    (outcomes : List Bool) : burstAverage alphaBurst outcomes ∈ Set.Icc 1 (2 ^ 32 - 1) :=
  ewma_mem_Icc h0 h1 ⟨le_rfl, by norm_num⟩ (finishedBursts_mem (Nat.zero_le _))

/-- The probability `a` of a loss rate and a burst length is at least zero, and it is at most one
exactly when the good state lasts a packet on average. -/
theorem leaveGood_mem_iff {l m : ℚ} (hl : l ∈ Set.Icc 0 1) (hm : m ∈ Set.Icc 1 (2 ^ 32 - 1)) :
    (let l' := max 0 (min l (1 - epsilon))
     l' * (1 / max m 1) / max (1 - l') epsilon ∈ Set.Icc 0 1) ↔ l * (1 + m) ≤ m := by
  obtain ⟨hl0, hl1⟩ := hl
  obtain ⟨hm1, hmax⟩ := hm
  have hm0 : 0 < m := by linarith
  have heps : 0 < epsilon := by norm_num [epsilon]
  have hsmall : epsilon * (1 + m) < 1 := by
    calc epsilon * (1 + m) ≤ epsilon * 2 ^ 32 :=
          mul_le_mul_of_nonneg_left (by linarith) heps.le
      _ < 1 := by norm_num [epsilon]
  have hle : epsilon ≤ 1 := by norm_num [epsilon]
  -- the bounds of the rate leave a positive divisor
  have hcap : max 0 (min l (1 - epsilon)) = min l (1 - epsilon) :=
    max_eq_right (le_min hl0 (by linarith))
  have hdiv : max (1 - min l (1 - epsilon)) epsilon = 1 - min l (1 - epsilon) :=
    max_eq_left (by linarith [min_le_right l (1 - epsilon)])
  have hpos : 0 < 1 - min l (1 - epsilon) := by linarith [min_le_right l (1 - epsilon)]
  have hnonneg : 0 ≤ min l (1 - epsilon) := le_min hl0 (by linarith)
  simp only [hcap, hdiv, max_eq_left hm1, Set.mem_Icc]
  have hiff : min l (1 - epsilon) * (1 / m) / (1 - min l (1 - epsilon)) ≤ 1 ↔
      min l (1 - epsilon) * (1 + m) ≤ m := by
    rw [div_le_one hpos, mul_one_div, div_le_iff₀ hm0]
    constructor <;> intro h <;> linarith
  have hzero : 0 ≤ min l (1 - epsilon) * (1 / m) / (1 - min l (1 - epsilon)) := by positivity
  rw [hiff]
  rcases le_total l (1 - epsilon) with hlow | hhigh
  · rw [min_eq_left hlow] at hzero ⊢
    exact and_iff_right hzero
  · -- the largest rate is too large for every burst length
    rw [min_eq_right hhigh]
    have hbound : (1 - epsilon) * (1 + m) ≤ l * (1 + m) :=
      mul_le_mul_of_nonneg_right hhigh (by linarith)
    constructor
    · rintro ⟨-, h⟩
      linarith
    · intro h
      linarith

/-- In every state of the fitter, its ratio is between the bounds and its parameters are
probabilities. -/
theorem BurstStatsFitter.probabilities (f : BurstStatsFitter) :
    f.fecRatio ∈ Set.Icc minFecRatio maxFecRatio ∧
      ∀ g ∈ f.params, g.a ∈ Set.Icc 0 1 ∧ g.b ∈ Set.Icc 0 1 := by
  constructor
  · rw [fecRatio]
    split
    · exact minFecRatio_mem
    · exact fecRatioFrom_mem _ _
  · intro g hg
    rw [params] at hg
    split at hg
    · cases hg
    · cases hg
      exact ⟨one_div_max_mem _, one_div_max_mem _⟩

namespace GilbertElliottEstimator

/-- Everything that the estimator and the fitter compute is a probability or within its bounds,
exactly when the packets are too few for an estimate, or the average `L` of the losses and the
average `M` of the bursts that ended satisfy `L * (1 + M) ≤ M`. -/
theorem probabilities_iff {alphaLoss alphaBurst : ℚ} (hl0 : 0 < alphaLoss) (hl1 : alphaLoss < 1)
    (hb0 : 0 < alphaBurst) (hb1 : alphaBurst < 1) (outcomes : List Bool) :
    (let e := (withAlphas alphaLoss alphaBurst).observeAll outcomes
     e.lossRate ∈ Set.Icc 0 1 ∧ 1 ≤ e.meanBurstLen ∧
       e.fecRatio ∈ Set.Icc minFecRatio maxFecRatio ∧
       (∀ g ∈ e.params, g.a ∈ Set.Icc 0 1 ∧ g.b ∈ Set.Icc 0 1) ∧
       ∀ f : BurstStatsFitter, f.fecRatio ∈ Set.Icc minFecRatio maxFecRatio ∧
         ∀ g ∈ f.params, g.a ∈ Set.Icc 0 1 ∧ g.b ∈ Set.Icc 0 1) ↔
      (minObsForEstimate ≤ outcomes.length →
        lossAverage alphaLoss outcomes * (1 + burstAverage alphaBurst outcomes) ≤
          burstAverage alphaBurst outcomes) := by
  obtain ⟨hloss, hburst, hobs⟩ :=
    @observeAll_eq (withAlphas alphaLoss alphaBurst) (by simp [withAlphas]) outcomes
  have hl := lossAverage_mem hl0 hl1 outcomes
  have hb := burstAverage_mem hb0 hb1 outcomes
  generalize (withAlphas alphaLoss alphaBurst).observeAll outcomes = e at hloss hburst hobs ⊢
  change e.lossRate = lossAverage alphaLoss outcomes at hloss
  change e.meanBurstLen = burstAverage alphaBurst outcomes at hburst
  rw [← hloss] at hl ⊢
  rw [← hburst] at hb ⊢
  have hlen : e.nObs = outcomes.length := hobs.trans (Nat.zero_add _)
  rw [← hlen, ← leaveGood_mem_iff hl hb]
  have hratio : e.fecRatio ∈ Set.Icc minFecRatio maxFecRatio := by
    rw [fecRatio]
    split
    · exact minFecRatio_mem
    · exact fecRatioFrom_mem _ _
  -- All the rest holds for every trace: the condition is about `a` alone.
  constructor
  · rintro ⟨-, -, -, hparams, -⟩ hmin
    exact (hparams _ (by rw [params, if_neg (by omega)]; rfl)).1
  · intro h
    refine ⟨hl, hb.1, hratio, fun g hg => ?_, BurstStatsFitter.probabilities⟩
    rw [params] at hg
    split at hg
    · cases hg
    · next hmin =>
      cases hg
      exact ⟨h (by omega), one_div_max_mem _⟩

/-- Packets of which two bursts, of three and of five, are lost. -/
def burstyTrace : List Bool :=
  List.replicate 12 true ++ List.replicate 3 false ++ List.replicate 9 true ++
    List.replicate 5 false ++ List.replicate 4 true

/-- After these packets everything is a probability. -/
theorem probabilities_bursty :
    let e := (withAlphas (5 / 100) (25 / 100)).observeAll burstyTrace
    e.lossRate ∈ Set.Icc 0 1 ∧ 1 ≤ e.meanBurstLen ∧
      e.fecRatio ∈ Set.Icc minFecRatio maxFecRatio ∧
      (∀ g ∈ e.params, g.a ∈ Set.Icc 0 1 ∧ g.b ∈ Set.Icc 0 1) ∧
      ∀ f : BurstStatsFitter, f.fecRatio ∈ Set.Icc minFecRatio maxFecRatio ∧
        ∀ g ∈ f.params, g.a ∈ Set.Icc 0 1 ∧ g.b ∈ Set.Icc 0 1 :=
  (probabilities_iff (by norm_num) (by norm_num) (by norm_num) (by norm_num) burstyTrace).mpr
    (by decide +kernel)

/-- An outage of thirty packets from the start: the burst has not ended, so the average burst is one
packet long, and `a` is above three. -/
theorem outage_leaveGood :
    ∃ g ∈ (new.observeAll (List.replicate 30 false)).params, 3 < g.a := by
  refine ⟨_, rfl, ?_⟩
  decide +kernel

end GilbertElliottEstimator

/-! ## Windows of acknowledgements -/

/-- The runs of a window as pairs of received and lost packets, with a zero for a missing end. -/
def ackRuns : List Bool → List (ℕ × ℕ)
  | [] => []
  | true :: outcomes =>
    match ackRuns outcomes with
    | [] => [(1, 0)]
    | (good, bad) :: runs => (good + 1, bad) :: runs
  | false :: outcomes =>
    match ackRuns outcomes with
    | (0, bad) :: runs => (0, bad + 1) :: runs
    | runs => (0, 1) :: runs

/-- The runs of an outcome, counted where they end. -/
def runsOf (x : Bool) : List Bool → ℕ
  | [] => 0
  | o :: outcomes => (if o = x ∧ outcomes.head? ≠ some x then 1 else 0) + runsOf x outcomes

/-- The cuts between windows that split a run of an outcome. -/
def splitRuns (x : Bool) : List (List Bool) → ℕ
  | [] => 0
  | window :: windows =>
    (if window.getLast? = some x ∧ windows.flatten.head? = some x then 1 else 0) +
      splitRuns x windows

/-- After every window comes another outcome than its last, if any. -/
def CutsBetweenRuns : List (List Bool) → Prop
  | [] => True
  | window :: windows =>
    (∀ o, window.getLast? = some o → windows.flatten.head? ≠ some o) ∧ CutsBetweenRuns windows

/-- The first pair has received packets when the window begins with one, and lost packets only
otherwise. -/
theorem exists_ackRuns_cons (o : Bool) (outcomes : List Bool) :
    ∃ good bad runs, ackRuns (o :: outcomes) = (good, bad) :: runs ∧
      (0 < good ↔ o = true) ∧ (o = false → 0 < bad) := by
  cases o with
  | true =>
    rw [ackRuns]
    split
    · exact ⟨1, 0, [], rfl, by simp⟩
    · exact ⟨_, _, _, rfl, by simp⟩
  | false =>
    rw [ackRuns]
    split
    · exact ⟨0, _, _, rfl, by simp⟩
    · exact ⟨0, 1, _, rfl, by simp⟩

/-- The fields of the pairs: their sums are the packets of each outcome, and as many of them are not
zero as there are runs. -/
theorem ackRuns_fields (outcomes : List Bool) :
    ((ackRuns outcomes).map Prod.fst).sum = outcomes.count true ∧
      (ackRuns outcomes).countP (0 < ·.1) = runsOf true outcomes ∧
      ((ackRuns outcomes).map Prod.snd).sum = outcomes.count false ∧
      (ackRuns outcomes).countP (0 < ·.2) = runsOf false outcomes := by
  induction outcomes with
  | nil => decide
  | cons o outcomes ih =>
    obtain ⟨hgood, hgoods, hbad, hbads⟩ := ih
    cases outcomes with
    | nil => cases o <;> decide
    | cons next outcomes =>
      obtain ⟨good, bad, runs, hruns, hnext, hlost⟩ := exists_ackRuns_cons next outcomes
      rw [hruns] at hgood hgoods hbad hbads
      have hlater : good = 0 ∧ next = false ∧ 0 < bad ∨ 0 < good ∧ next = true := by
        cases next with
        | true => exact .inr ⟨hnext.mpr rfl, rfl⟩
        | false => exact .inl ⟨by simpa using hnext, rfl, hlost rfl⟩
      cases o with
      | true =>
        -- the first pair gets a packet received, which begins a run when it had none
        have hcons : ackRuns (true :: next :: outcomes) = (good + 1, bad) :: runs := by
          rw [ackRuns, hruns]
        rw [hcons]
        obtain ⟨rfl, rfl, hbad0⟩ | ⟨hgood0, rfl⟩ := hlater
        · simp [runsOf, hbad0] at hgood hgoods hbad hbads ⊢
          omega
        · simp [runsOf, List.countP_cons, hgood0] at hgood hgoods hbad hbads ⊢
          omega
      | false =>
        obtain ⟨rfl, rfl, hbad0⟩ | ⟨hgood0, rfl⟩ := hlater
        · -- the lost run of the rest gets longer
          have hcons : ackRuns (false :: false :: outcomes) = (0, bad + 1) :: runs := by
            rw [ackRuns, hruns]
            rfl
          rw [hcons]
          simp [runsOf, hbad0] at hgood hgoods hbad hbads ⊢
          omega
        · -- a pair of its own before the rest
          have hcons : ackRuns (false :: true :: outcomes) = (0, 1) :: (good, bad) :: runs := by
            obtain ⟨g, rfl⟩ := Nat.exists_eq_succ_of_ne_zero hgood0.ne'
            rw [ackRuns, hruns]
            rfl
          rw [hcons]
          simp [runsOf, hgood0] at hgood hgoods hbad hbads ⊢
          omega

/-- Two parts of a trace have a run more than the trace when a run goes over the cut. -/
theorem runsOf_append (x : Bool) (earlier later : List Bool) :
    runsOf x earlier + runsOf x later = runsOf x (earlier ++ later) +
      if earlier.getLast? = some x ∧ later.head? = some x then 1 else 0 := by
  induction earlier with
  | nil => simp [runsOf]
  | cons o earlier ih =>
    cases earlier with
    | nil =>
      -- the cut: the run ends at it exactly when the later part begins with something else
      simp only [runsOf, List.cons_append, List.nil_append, List.head?_nil, List.getLast?_singleton,
        Option.some.injEq]
      by_cases ho : o = x <;> by_cases hlater : later.head? = some x <;> simp [ho, hlater]
      omega
    | cons next earlier =>
      rw [runsOf, add_assoc, ih, ← add_assoc, List.getLast?_cons_cons]
      rfl

/-- The runs of the windows are those of the whole trace and the runs that cuts split. -/
theorem sum_runsOf (x : Bool) (windows : List (List Bool)) :
    (windows.map (runsOf x)).sum = runsOf x windows.flatten + splitRuns x windows := by
  induction windows with
  | nil => rfl
  | cons window windows ih =>
    rw [List.map_cons, List.sum_cons, ih, List.flatten_cons, splitRuns, ← add_assoc,
      runsOf_append, add_assoc]

/-- The cuts are between runs exactly when no run is split. -/
theorem cutsBetweenRuns_iff (windows : List (List Bool)) :
    CutsBetweenRuns windows ↔ splitRuns true windows = 0 ∧ splitRuns false windows = 0 := by
  induction windows with
  | nil => simp [CutsBetweenRuns, splitRuns]
  | cons window windows ih =>
    have hbool : (∀ o, window.getLast? = some o → windows.flatten.head? ≠ some o) ↔
        ¬ (window.getLast? = some true ∧ windows.flatten.head? = some true) ∧
          ¬ (window.getLast? = some false ∧ windows.flatten.head? = some false) := by
      rw [Bool.forall_bool, not_and, not_and, and_comm]
    rw [CutsBetweenRuns, hbool, ih, splitRuns, splitRuns]
    by_cases htrue : window.getLast? = some true ∧ windows.flatten.head? = some true <;>
      by_cases hfalse : window.getLast? = some false ∧ windows.flatten.head? = some false <;>
        simp [htrue, hfalse]

namespace BurstStatsFitter

/-- The fitter after windows of packets, each reported as its runs. -/
def ingestAll (f : BurstStatsFitter) (windows : List (List Bool)) : BurstStatsFitter :=
  windows.foldl (fun f window => f.ingestAckRunLengths (ackRuns window)) f

/-- Pairs add their fields to the sums, and those that are not zero to the counts. -/
theorem ingestAckRunLengths_eq (f : BurstStatsFitter) (runs : List (ℕ × ℕ)) :
    f.ingestAckRunLengths runs =
      ⟨f.goodRunSum + (runs.map Prod.fst).sum, f.goodRunCount + runs.countP (0 < ·.1),
        f.badRunSum + (runs.map Prod.snd).sum, f.badRunCount + runs.countP (0 < ·.2)⟩ := by
  induction runs generalizing f with
  | nil => rfl
  | cons run runs ih =>
    obtain ⟨good, bad⟩ := run
    rw [ingestAckRunLengths, List.foldl_cons]
    refine (ih _).trans ?_
    rcases Nat.eq_zero_or_pos good with rfl | hgood <;>
      rcases Nat.eq_zero_or_pos bad with rfl | hbad <;>
        simp [observeGoodRun, observeBadRun, *] <;> omega

/-- A window adds its packets to the sums and its runs to the counts. -/
theorem ingest_ackRuns (f : BurstStatsFitter) (window : List Bool) :
    f.ingestAckRunLengths (ackRuns window) =
      ⟨f.goodRunSum + window.count true, f.goodRunCount + runsOf true window,
        f.badRunSum + window.count false, f.badRunCount + runsOf false window⟩ := by
  obtain ⟨hgood, hgoods, hbad, hbads⟩ := ackRuns_fields window
  rw [ingestAckRunLengths_eq, hgood, hgoods, hbad, hbads]

/-- Windows add the packets of the whole trace to the sums, and the runs of each to the counts. -/
theorem ingestAll_eq (f : BurstStatsFitter) (windows : List (List Bool)) :
    f.ingestAll windows =
      ⟨f.goodRunSum + windows.flatten.count true,
        f.goodRunCount + (windows.map (runsOf true)).sum,
        f.badRunSum + windows.flatten.count false,
        f.badRunCount + (windows.map (runsOf false)).sum⟩ := by
  induction windows generalizing f with
  | nil => rfl
  | cons window windows ih =>
    rw [ingestAll, List.foldl_cons]
    refine (ih _).trans ?_
    simp [ingest_ackRuns, add_assoc]

/-- The windows give what the whole trace gives exactly when no cut is inside a run. -/
theorem ingestAll_eq_ingest_iff (windows : List (List Bool)) :
    (new.ingestAll windows = new.ingestAckRunLengths (ackRuns windows.flatten) ∧
      (new.ingestAll windows).params =
        (new.ingestAckRunLengths (ackRuns windows.flatten)).params) ↔
      CutsBetweenRuns windows := by
  rw [cutsBetweenRuns_iff, ingestAll_eq, ingest_ackRuns, sum_runsOf, sum_runsOf]
  constructor
  · rintro ⟨heq, -⟩
    simp only [mk.injEq] at heq
    omega
  · rintro ⟨hgood, hbad⟩
    rw [hgood, hbad]
    exact ⟨rfl, rfl⟩

/-- Eight times two packets received and one lost, where each first packet is in a window of its
own: the fitter counts sixteen runs instead of eight, and leaves the good state twice as often. -/
theorem ingestAll_cut :
    let windows := (List.replicate 8 [[true], [true, false]]).flatten
    new.ingestAll windows = ⟨16, 16, 8, 8⟩ ∧
      new.ingestAckRunLengths (ackRuns windows.flatten) = ⟨16, 8, 8, 8⟩ ∧
      (new.ingestAll windows).params.map (·.a) = some 1 ∧
      (new.ingestAckRunLengths (ackRuns windows.flatten)).params.map (·.a) = some (1 / 2) := by
  decide +kernel

end BurstStatsFitter

end LowBand.Lbtp
