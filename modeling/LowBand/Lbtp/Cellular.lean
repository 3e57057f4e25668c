import LowBand.Lib.Ewma
import Mathlib.Algebra.Order.Archimedean.Basic
import Mathlib.Algebra.Order.Ring.Rat

/-!
# The cellular detector's baseline

`BimodalDetector` of `cellular.rs` compares one-way delays with a baseline. The baseline is an
exponential average of the delays up to one and a half times its own value, and its start is the
first delay. The arithmetic is exact on rational numbers.

A delay that the baseline takes for a spike leaves it unchanged (`observe_baseline`). So from a
history onwards, a constant delay is either a spike for ever (`observeAll_spikes`) or never again,
since the baseline moves towards it (`observeAll_average`), and `baseline_converges_iff` says which.
-/

namespace LowBand.Lbtp

open Lib

/-- `OWD_WINDOW_SIZE`. -/
def owdWindowSize : ℕ := 30

/-- `SPIKE_THRESHOLD_FACTOR`. -/
def spikeThresholdFactor : ℚ := 15 / 10

/-- `MIN_BIMODAL_FRACTION`. -/
def minBimodalFraction : ℚ := 10 / 100

/-- `MAX_BIMODAL_FRACTION`. -/
def maxBimodalFraction : ℚ := 45 / 100

/-- `MIN_BIMODAL_SPREAD_US`. -/
def minBimodalSpreadUs : ℚ := 15000

/-- `ALPHA_BASELINE`. -/
def alphaBaseline : ℚ := 10 / 100

/-- `ALPHA_SPREAD`. -/
def alphaSpread : ℚ := 20 / 100

/-- `BimodalDetector`. -/
structure BimodalDetector where
  /-- The latest delays, the oldest first. -/
  window : List ℕ
  /-- The average of the delays that are no spikes. -/
  baselineUs : ℚ
  /-- The average distance from the baseline. -/
  spreadUs : ℚ
  /-- The verdict on the window. -/
  bimodal : Bool

namespace BimodalDetector

/-- `BimodalDetector::new`. -/
def new : BimodalDetector := ⟨[], 0, 0, false⟩

/-- `evaluate`. -/
def evaluate (d : BimodalDetector) : Bool :=
  if d.window.length < owdWindowSize then false
  else
    let threshold := d.baselineUs * spikeThresholdFactor
    if threshold < 1 then false
    else
      let spikeCount := d.window.countP fun s => (s : ℚ) > threshold
      let spikeFraction : ℚ := spikeCount / d.window.length
      spikeFraction ≥ minBimodalFraction ∧ spikeFraction ≤ maxBimodalFraction ∧
        d.spreadUs ≥ minBimodalSpreadUs

/-- `observe`. -/
def observe (d : BimodalDetector) (owdUs : ℕ) : BimodalDetector :=
  let owd : ℚ := owdUs
  -- The first delay is the baseline, whatever it is.
  if d.window.isEmpty then { d with baselineUs := owd, window := [owdUs] }
  else
    let window := d.window ++ [owdUs]
    let window := if window.length > owdWindowSize then window.tail else window
    let spikeThresh := d.baselineUs * spikeThresholdFactor
    let baselineUs :=
      if owd ≤ spikeThresh then (1 - alphaBaseline) * d.baselineUs + alphaBaseline * owd
      else d.baselineUs
    let deviation := |owd - baselineUs|
    let spreadUs := (1 - alphaSpread) * d.spreadUs + alphaSpread * deviation
    let d := { d with window, baselineUs, spreadUs }
    { d with bimodal := d.evaluate }

/-- The detector after delays. -/
def observeAll (d : BimodalDetector) (owds : List ℕ) : BimodalDetector := owds.foldl observe d

/-- A detector that has seen a delay, with a baseline that may be one. -/
structure Started (d : BimodalDetector) : Prop where
  window : d.window ≠ []
  baseline : 0 ≤ d.baselineUs

/-- A delay after the first moves the baseline when it is no spike. -/
theorem observe_baseline {d : BimodalDetector} (h : d.window ≠ []) (owdUs : ℕ) :
    (d.observe owdUs).baselineUs =
      if owdUs ≤ d.baselineUs * spikeThresholdFactor then
        (1 - alphaBaseline) * d.baselineUs + alphaBaseline * owdUs
      else d.baselineUs := by
  rw [observe, if_neg (by simpa using h)]

/-- Every delay leaves the detector started. -/
theorem started_observe {d : BimodalDetector} (h : 0 ≤ d.baselineUs) (owdUs : ℕ) :
    (d.observe owdUs).Started := by
  -- The first sample becomes the baseline itself.
  by_cases hempty : d.window = []
  · rw [observe, if_pos (by simpa using hempty)]
    exact ⟨List.cons_ne_nil _ _, Nat.cast_nonneg owdUs⟩
  · constructor
    · rw [observe, if_neg (by simpa using hempty)]
      have hlen : 0 < d.window.length := List.length_pos_of_ne_nil hempty
      refine List.ne_nil_of_length_pos ?_
      dsimp only
      split
      · rw [List.length_tail, List.length_append]
        simpa using hlen
      · simp
    · rw [observe_baseline hempty]
      split
      -- A weighted mean of two nonnegative delays.
      · have howd : (0 : ℚ) ≤ owdUs := Nat.cast_nonneg owdUs
        norm_num [alphaBaseline]
        positivity
      · exact h

/-- The detector after a delay and more has started. -/
theorem started_observeAll {d : BimodalDetector} (h : 0 ≤ d.baselineUs) {owds : List ℕ}
    (howds : owds ≠ []) : (d.observeAll owds).Started := by
  induction owds generalizing d with
  | nil => exact absurd rfl howds
  | cons owd owds ih =>
    have hstart := started_observe h owd
    by_cases hrest : owds = []
    · subst hrest
      exact hstart
    · exact ih hstart.baseline hrest

/-- A constant spike never moves the baseline. -/
theorem observeAll_spikes {d : BimodalDetector} (h : d.Started) {owdUs : ℕ}
    (hspike : d.baselineUs * spikeThresholdFactor < owdUs) (n : ℕ) :
    (d.observeAll (List.replicate n owdUs)).baselineUs = d.baselineUs := by
  induction n generalizing d with
  | zero => rfl
  | succ n ih =>
    have hkeep : (d.observe owdUs).baselineUs = d.baselineUs := by
      rw [observe_baseline h.window, if_neg (not_le.mpr hspike)]
    rw [List.replicate_succ]
    exact (ih (started_observe h.baseline owdUs) (by rwa [hkeep])).trans hkeep

/-- A constant delay that is no spike never becomes one, and the baseline averages it. -/
theorem observeAll_average {d : BimodalDetector} (h : d.Started) {owdUs : ℕ}
    (hkeep : owdUs ≤ d.baselineUs * spikeThresholdFactor) (n : ℕ) :
    (d.observeAll (List.replicate n owdUs)).baselineUs =
      ewma alphaBaseline d.baselineUs (List.replicate n (owdUs : ℚ)) := by
  induction n generalizing d with
  | zero => rfl
  | succ n ih =>
    have hmove : (d.observe owdUs).baselineUs =
        (1 - alphaBaseline) * d.baselineUs + alphaBaseline * owdUs := by
      rw [observe_baseline h.window, if_pos hkeep]
    have howd : (0 : ℚ) ≤ owdUs := Nat.cast_nonneg owdUs
    -- nine tenths of the old threshold and three twentieths of the delay
    have hnext : owdUs ≤ (d.observe owdUs).baselineUs * spikeThresholdFactor := by
      rw [hmove]
      norm_num [alphaBaseline, spikeThresholdFactor] at hkeep ⊢
      linarith
    rw [List.replicate_succ, List.replicate_succ, ewma_cons, ← hmove]
    exact ih (started_observe h.baseline owdUs) hnext

/-- From a detector that has started, the baseline converges to a constant delay exactly when that
delay is no spike. -/
theorem converges_iff_of_started {d : BimodalDetector} (h : d.Started) (owdUs : ℕ) :
    (∀ ε : ℚ, 0 < ε → ∃ N, ∀ n, N ≤ n →
      |(d.observeAll (List.replicate n owdUs)).baselineUs - owdUs| < ε) ↔
      owdUs ≤ d.baselineUs * spikeThresholdFactor := by
  constructor
  · intro hconv
    by_contra hspike
    have hspike := not_le.mp hspike
    have habove : d.baselineUs < owdUs := by
      have hbase := h.baseline
      norm_num [spikeThresholdFactor] at hspike
      linarith
    -- the distance at the start stays
    obtain ⟨N, hN⟩ := hconv (owdUs - d.baselineUs) (sub_pos.mpr habove)
    have hclose := hN N le_rfl
    rw [observeAll_spikes h hspike, abs_sub_comm, abs_of_pos (sub_pos.mpr habove)] at hclose
    exact lt_irrefl _ hclose
  · intro hkeep ε hε
    have halpha : 0 < alphaBaseline ∧ alphaBaseline < 1 := by norm_num [alphaBaseline]
    obtain ⟨N, hN⟩ :=
      exists_abs_ewma_replicate_sub_lt halpha.1 halpha.2 d.baselineUs (owdUs : ℚ) hε
    refine ⟨N, fun n hn => ?_⟩
    rw [observeAll_average h hkeep]
    exact hN n hn

/-- After any delays, the baseline converges to a constant delay exactly when there were none, or
that delay is no spike when it begins. -/
theorem baseline_converges_iff (history : List ℕ) (owdUs : ℕ) :
    (∀ ε : ℚ, 0 < ε → ∃ N, ∀ n, N ≤ n →
      |(new.observeAll (history ++ List.replicate n owdUs)).baselineUs - owdUs| < ε) ↔
      history = [] ∨
        owdUs ≤ (new.observeAll history).baselineUs * spikeThresholdFactor := by
  have happend (n : ℕ) : new.observeAll (history ++ List.replicate n owdUs) =
      (new.observeAll history).observeAll (List.replicate n owdUs) := List.foldl_append
  simp only [happend]
  by_cases hempty : history = []
  · refine iff_of_true (fun ε hε => ⟨1, fun n hn => ?_⟩) (.inl hempty)
    subst hempty
    obtain ⟨m, rfl⟩ := Nat.exists_eq_add_of_le' hn
    -- the first delay is the baseline, and it is no spike to itself
    have hstart : (new.observe owdUs).Started := started_observe le_rfl owdUs
    have hfirst : (new.observe owdUs).baselineUs = owdUs := rfl
    have hkeep : owdUs ≤ (new.observe owdUs).baselineUs * spikeThresholdFactor := by
      have howd : (0 : ℚ) ≤ owdUs := Nat.cast_nonneg owdUs
      rw [hfirst]
      norm_num [spikeThresholdFactor]
      linarith
    have haverage := observeAll_average hstart hkeep m
    have hzero := ewma_replicate_sub alphaBaseline (owdUs : ℚ) owdUs m
    rw [hfirst] at haverage
    change |((new.observe owdUs).observeAll (List.replicate m owdUs)).baselineUs - owdUs| < ε
    rw [haverage, hzero, sub_self, mul_zero, abs_zero]
    exact hε
  · rw [or_iff_right hempty]
    exact converges_iff_of_started (started_observeAll le_rfl hempty) owdUs

/-- A first delay of 20 ms on a path that takes 80 ms: the baseline stays at 20 ms. -/
theorem baseline_stuck :
    ¬ ∀ ε : ℚ, 0 < ε → ∃ N, ∀ n, N ≤ n →
      |(new.observeAll ([20000] ++ List.replicate n 80000)).baselineUs - (80000 : ℕ)| < ε := by
  have hstart : (new.observeAll [20000]).Started := started_observeAll le_rfl (by simp)
  have hspike : (new.observeAll [20000]).baselineUs * spikeThresholdFactor < (80000 : ℕ) := by
    norm_num [observeAll, observe, new, spikeThresholdFactor]
  intro hconv
  exact absurd ((converges_iff_of_started hstart 80000).mp hconv) (not_le.mpr hspike)

end BimodalDetector

end LowBand.Lbtp
