import LowBand.Platform.ControlLoop

/-!
# Tiers over whole runs

What the control loop's tier does in the long run. An estimate sustains all tiers up to
`classifyBweTier`, and leaves those up to `toleratedTier` alone once they are reached; between the
two lies the hysteresis. `below_iff` and `headroom_iff_lt` say so of a single tick.

While the estimates stay in one band, the tier goes to the nearest tier between the two and stays
there (`tier_settles`): down a step each tick, up a step each fifty. Whatever the estimates are, the
tier goes up at most once in fifty ticks, and down no more often than it went up before
(`tier_changes_le`).
-/

namespace LowBand.Platform

open Lib

/-- There are four tiers. -/
theorem TierState.rank_le (tier : TierState) : tier.rank ≤ 3 := by
  cases tier <;> decide

/-- The highest tier that an estimate does not take down. -/
def toleratedTier (bweBps : ℕ) : TierState :=
  if 4 * fullFloorBps ≤ 5 * bweBps then .full
  else if 4 * comfortableFloorBps ≤ 5 * bweBps then .comfortable
  else if 4 * constrainedFloorBps ≤ 5 * bweBps then .constrained
  else .survival

/-- An estimate takes down the tiers above the tolerated one. -/
theorem below_iff {tier : TierState} {bweBps : ℕ} :
    Below tier bweBps ↔ (toleratedTier bweBps).rank < tier.rank := by
  have hfloors : constrainedFloorBps < comfortableFloorBps ∧
      comfortableFloorBps < fullFloorBps := by decide
  unfold Below toleratedTier
  cases tier with
  | survival => simp [tierFloorBps, TierState.rank]
  | constrained | comfortable | full =>
    simp only [tierFloorBps, Option.mem_some_iff, exists_eq_left']
    split_ifs <;> simp only [TierState.rank] <;> omega

/-- An estimate has headroom over the tiers below the one that it sustains. -/
theorem headroom_iff_lt {tier : TierState} {bweBps : ℕ} :
    Headroom tier bweBps ↔ tier.rank < (classifyBweTier bweBps).rank := by
  cases hup : tierStepUp tier with
  | none =>
    have htop := (classifyBweTier bweBps).rank_le
    cases tier with
    | survival | constrained | comfortable => cases hup
    | full =>
      refine iff_of_false ?_ (Nat.not_lt.mpr htop)
      rintro ⟨next, hnext, -⟩
      cases hnext
  | some next =>
    rw [headroom_iff hup, TierState.le_iff_rank, rank_of_tierStepUp hup]
    exact Nat.succ_le_iff

/-- What an estimate sustains, it tolerates. -/
theorem classifyBweTier_le_toleratedTier (bweBps : ℕ) :
    (classifyBweTier bweBps).rank ≤ (toleratedTier bweBps).rank := by
  unfold classifyBweTier toleratedTier
  split_ifs <;> first | decide | omega

namespace ControlLoop

/-- The ticks of headroom that a loop has counted. -/
def hold (c : ControlLoop) : ℕ := c.emitter.upgradeGuard.holdTicks

/-- A tick, by where the tier lies to the band of the estimate. -/
theorem next_rank_hold (c : ControlLoop) (input : ControlLoopInput) (hhold : c.hold < 50) :
    let c' := c.next input
    c'.hold < 50 ∧
      ((toleratedTier input.bweBps).rank < c.currentTier.rank →
        c'.currentTier.rank + 1 = c.currentTier.rank ∧ c'.hold = 0) ∧
      (c.currentTier.rank < (classifyBweTier input.bweBps).rank →
        50 * c'.currentTier.rank + c'.hold = 50 * c.currentTier.rank + c.hold + 1) ∧
      (c.currentTier.rank ≤ (toleratedTier input.bweBps).rank →
        (classifyBweTier input.bweBps).rank ≤ c.currentTier.rank →
        c'.currentTier = c.currentTier ∧ c'.hold = 0) := by
  dsimp only
  rw [← below_iff, ← headroom_iff_lt, ← not_lt, ← below_iff, ← not_lt, ← headroom_iff_lt]
  obtain ⟨hbelow, ht⟩ | ⟨up, hup, hroom, hlong, ht⟩ | ⟨hroom, hshort, ht⟩ | ⟨hbelow, hroom, ht⟩ :=
    c.emitter.tick_cases c.currentTier input.bweBps
  · have hroom : ¬ Headroom c.currentTier input.bweBps :=
      not_headroom_of_below hbelow (Nat.le_succ _)
    rw [next_eq ht]
    exact ⟨Nat.succ_pos _, fun _ => ⟨rank_tierStepDown hbelow, rfl⟩, fun h => absurd h hroom,
      fun h => absurd hbelow h⟩
  · have hbelow : ¬ Below c.currentTier input.bweBps :=
      fun h => not_headroom_of_below h (Nat.le_succ _) hroom
    have hrank := rank_of_tierStepUp hup
    -- The fiftieth tick of the hold takes the step.
    have hlast : c.hold + 1 = 50 := Nat.le_antisymm hhold hlong
    rw [next_eq ht]
    refine ⟨Nat.succ_pos _, fun h => absurd h hbelow, fun _ => ?_, fun _ h => absurd hroom h⟩
    show 50 * up.rank + 0 = _
    omega
  · have hbelow : ¬ Below c.currentTier input.bweBps :=
      fun h => not_headroom_of_below h (Nat.le_succ _) hroom
    rw [next_eq ht]
    exact ⟨hshort, fun h => absurd h hbelow, fun _ => (Nat.add_assoc ..).symm,
      fun _ h => absurd hroom h⟩
  · rw [next_eq ht]
    exact ⟨Nat.succ_pos _, fun h => absurd h hbelow, fun h => absurd h hroom,
      fun _ _ => ⟨rfl, rfl⟩⟩

/-- The hold never reaches fifty. -/
theorem hold_lt (inputs : List ControlLoopInput) : (after inputs).hold < 50 := by
  have hstep : ∀ (c : ControlLoop) input, c.hold < 50 → (c.next input).hold < 50 :=
    fun c input h => (next_rank_hold c input h).1
  exact run_induction hstep inputs (Nat.succ_pos _)

/-! ## Steady estimates -/

/-- From any point on, ticks whose estimates lie in one band. -/
theorem rank_run_steady {low high : TierState} {c : ControlLoop} (hhold : c.hold < 50)
    {steady : List ControlLoopInput} (hsteady : ∀ input ∈ steady,
      classifyBweTier input.bweBps = low ∧ toleratedTier input.bweBps = high) :
    (run next c steady).currentTier.rank =
      if high.rank < c.currentTier.rank then
        max high.rank (c.currentTier.rank - steady.length)
      else if c.currentTier.rank < low.rank then
        min low.rank (c.currentTier.rank + (c.hold + steady.length) / 50)
      else c.currentTier.rank := by
  -- By induction on the steady inputs, with the tier and the hold as one potential.
  induction steady generalizing c with
  | nil =>
    rw [run_nil, List.length_nil]
    split_ifs <;> omega
  | cons input steady ih =>
    obtain ⟨⟨hlow, hhigh⟩, hsteady⟩ := List.forall_mem_cons.mp hsteady
    obtain ⟨hnext, hdown, hup, hstay⟩ := next_rank_hold c input hhold
    have hband := classifyBweTier_le_toleratedTier input.bweBps
    rw [hlow] at hup hstay hband
    rw [hhigh] at hdown hstay hband
    rw [run_cons, ih hnext hsteady, List.length_cons]
    -- Above the band one tier is lost a tick; below it one is gained in fifty.
    by_cases habove : high.rank < c.currentTier.rank
    · obtain ⟨hrank, -⟩ := hdown habove
      split_ifs <;> omega
    · by_cases hbelow : c.currentTier.rank < low.rank
      · have hpotential := hup hbelow
        split_ifs <;> omega
      · obtain ⟨htier, -⟩ := hstay (Nat.le_of_not_lt habove) (Nat.le_of_not_lt hbelow)
        rw [htier, if_neg habove, if_neg hbelow, if_neg habove, if_neg hbelow]

/-- After any ticks, estimates that stay in one band take the tier to the nearest one that they
sustain or tolerate: down one step each tick, up one step each fifty ticks of the hold, and not at
all when the tier is in the band. After fifteen seconds it is there, and it stays. -/
theorem tier_settles {low high : TierState} (inputs steady : List ControlLoopInput)
    (hsteady : ∀ input ∈ steady,
      classifyBweTier input.bweBps = low ∧ toleratedTier input.bweBps = high) :
    let before := (after inputs).currentTier.rank
    let settled := (after (inputs ++ steady)).currentTier.rank
    (settled =
      if high.rank < before then max high.rank (before - steady.length)
      else if before < low.rank then
        min low.rank (before + ((after inputs).hold + steady.length) / 50)
      else before) ∧
    (150 ≤ steady.length → settled = max low.rank (min before high.rank)) := by
  intro before settled
  have hafter : after (inputs ++ steady) = run next (after inputs) steady :=
    run_append next new inputs steady
  have hrun := rank_run_steady (hold_lt inputs) hsteady
  rw [← hafter] at hrun
  refine ⟨hrun, fun hlong => ?_⟩
  -- At most three tiers are to be crossed.
  have hsteps : before ≤ 3 ∧ low.rank ≤ 3 := ⟨(after inputs).currentTier.rank_le, low.rank_le⟩
  obtain ⟨input, hinput⟩ : ∃ input, input ∈ steady := List.exists_mem_of_length_pos (by omega)
  have hband := classifyBweTier_le_toleratedTier input.bweBps
  rw [(hsteady input hinput).1, (hsteady input hinput).2] at hband
  change settled = if high.rank < before then _ else if before < low.rank then _ else before
    at hrun
  generalize (after inputs).hold = held at hrun
  rw [hrun]
  split_ifs <;> omega

/-- A minute at the floor of `Full`. -/
theorem tier_settles_full :
    let steady : List ControlLoopInput := List.replicate 600 ⟨256000, 30, 0, .nominal⟩
    (after ([] ++ steady)).currentTier.rank = 3 :=
  (@tier_settles .full .full [] (List.replicate 600 ⟨256000, 30, 0, .nominal⟩)
    (fun _ h => (List.eq_of_mem_replicate h) ▸ by decide)).2
    (by rw [List.length_replicate]; omega)

/-! ## Changes of tier -/

/-- How often the tier goes up, after `tier` and along `tiers`. -/
def rises : TierState → List TierState → ℕ
  | _, [] => 0
  | tier, tier' :: tiers => (if tier < tier' then 1 else 0) + rises tier' tiers

/-- How often the tier goes down. -/
def falls : TierState → List TierState → ℕ
  | _, [] => 0
  | tier, tier' :: tiers => (if tier' < tier then 1 else 0) + falls tier' tiers

/-- A tick pays for a rise with fifty ticks of hold, and moves by one step at most. -/
theorem next_changes (c : ControlLoop) (input : ControlLoopInput) (hhold : c.hold < 50) :
    let c' := c.next input
    c'.hold < 50 ∧
      50 * (if c.currentTier < c'.currentTier then 1 else 0) + c'.hold ≤ c.hold + 1 ∧
      c'.currentTier.rank + (if c'.currentTier < c.currentTier then 1 else 0) =
        c.currentTier.rank + (if c.currentTier < c'.currentTier then 1 else 0) := by
  obtain ⟨hnext, hdown, hup, hstay⟩ := next_rank_hold c input hhold
  have hband := classifyBweTier_le_toleratedTier input.bweBps
  refine ⟨hnext, ?_⟩
  simp only [TierState.lt_iff_rank]
  by_cases habove : (toleratedTier input.bweBps).rank < c.currentTier.rank
  · obtain ⟨hrank, hzero⟩ := hdown habove
    constructor <;> split_ifs <;> omega
  · by_cases hbelow : c.currentTier.rank < (classifyBweTier input.bweBps).rank
    · have hpotential := hup hbelow
      constructor <;> split_ifs <;> omega
    · obtain ⟨htier, hzero⟩ := hstay (Nat.le_of_not_lt habove) (Nat.le_of_not_lt hbelow)
      rw [htier, hzero]
      constructor <;> split_ifs <;> omega

/-- The changes of tier along the ticks from any loop. -/
theorem changes_outputs {c : ControlLoop} (hhold : c.hold < 50)
    (inputs : List ControlLoopInput) :
    let tiers := (outputs c inputs).map (·.tier)
    50 * rises c.currentTier tiers ≤ c.hold + inputs.length ∧
      falls c.currentTier tiers ≤ c.currentTier.rank + rises c.currentTier tiers := by
  induction inputs generalizing c with
  | nil => exact ⟨Nat.zero_le _, Nat.zero_le _⟩
  | cons input inputs ih =>
    obtain ⟨hnext, hcost, hrank⟩ := next_changes c input hhold
    obtain ⟨hrises, hfalls⟩ := ih hnext
    simp only [outputs, List.map_cons, tick_tier, rises, falls, List.length_cons]
    generalize (outputs (c.next input) inputs).map (·.tier) = tiers at hrises hfalls ⊢
    constructor <;> omega

/-- In any `n` ticks, after any others and whatever the estimates are: the tier goes up at most once
for each fifty of them and once for the hold before, and down at most three times more often than it
goes up. So it changes at most `n / 25 + 5` times, however the estimates flap. -/
theorem tier_changes_le (inputs window : List ControlLoopInput) :
    let before := (after inputs).currentTier
    let tiers := (outputs (after inputs) window).map (·.tier)
    rises before tiers ≤ (window.length + 49) / 50 ∧
      falls before tiers ≤ before.rank + rises before tiers ∧
      rises before tiers + falls before tiers ≤ window.length / 25 + 5 := by
  intro before tiers
  have hhold : (after inputs).hold < 50 := hold_lt inputs
  obtain ⟨hrises, hfalls⟩ := changes_outputs hhold window
  change 50 * rises before tiers ≤ _ at hrises
  change falls before tiers ≤ before.rank + rises before tiers at hfalls
  have hrank : before.rank ≤ 3 := before.rank_le
  refine ⟨by omega, hfalls, by omega⟩

end ControlLoop

end LowBand.Platform
