import Mathlib.Order.Nat
import Mathlib.Tactic.Common

/-!
# Session quality tiers

The tier state machine of the governor (`core/platform/src/tier.rs`, `tier_downgrade_guard.rs`,
`tier_upgrade_guard.rs` and `tier_classifier.rs`). Each tick takes the current tier and a bandwidth
estimate. An estimate below four fifths of the tier's floor takes the tier down one step at once. An
estimate at or above the floor of the next tier counts towards a hold of 50 ticks, and the tick that
completes the hold takes the tier up one step.

`Below` and `Headroom` name the two conditions in terms of the floors. `tick_cases` says all that a
tick can do: go down, go up, count one more tick of the hold, or restart the hold. `tick_mono`
compares two emitters of which one is ahead (`Ahead`): it stays ahead when it sees at least the same
bandwidth.
-/

namespace LowBand.Platform

/-- The quality tier that the governor emits. -/
inductive TierState
  | survival
  | constrained
  | comfortable
  | full
  deriving DecidableEq, Repr

namespace TierState

/-- The place of a tier in the derived order `Survival < Constrained < Comfortable < Full`. -/
def rank : TierState → ℕ
  | survival => 0
  | constrained => 1
  | comfortable => 2
  | full => 3

/-- Tiers are compared by rank. -/
instance : LE TierState := ⟨fun a b => a.rank ≤ b.rank⟩

/-- So are they strictly. -/
instance : LT TierState := ⟨fun a b => a.rank < b.rank⟩

/-- The comparison can be decided. -/
instance (a b : TierState) : Decidable (a ≤ b) := inferInstanceAs (Decidable (a.rank ≤ b.rank))

/-- So can the strict one. -/
instance (a b : TierState) : Decidable (a < b) := inferInstanceAs (Decidable (a.rank < b.rank))

/-- Each tier has its own rank. -/
theorem rank_injective : Function.Injective rank := by
  intro a b h
  cases a <;> cases b <;> first | rfl | exact absurd h (by decide)

/-- What the comparison means. -/
theorem le_iff_rank {a b : TierState} : a ≤ b ↔ a.rank ≤ b.rank := Iff.rfl

/-- What the strict one means. -/
theorem lt_iff_rank {a b : TierState} : a < b ↔ a.rank < b.rank := Iff.rfl

end TierState

/-- The bandwidth that sustains `Constrained`. -/
def constrainedFloorBps : ℕ := 64000

/-- The bandwidth that sustains `Comfortable`. -/
def comfortableFloorBps : ℕ := 128000

/-- The bandwidth that sustains `Full`. -/
def fullFloorBps : ℕ := 256000

/-- The bandwidth floor of a tier. The bottom tier has none. -/
def tierFloorBps : TierState → Option ℕ
  | .survival => none
  | .constrained => some constrainedFloorBps
  | .comfortable => some comfortableFloorBps
  | .full => some fullFloorBps

/-- The estimate below which a tier is left. -/
def downgradeTriggerBps (tier : TierState) : Option ℕ :=
  (tierFloorBps tier).map fun floor => floor * 4 / 5

/-- The tier one step below. -/
def tierStepDown : TierState → TierState
  | .full => .comfortable
  | .comfortable => .constrained
  | .constrained => .survival
  | .survival => .survival

/-- The tier one step above, if there is one. -/
def tierStepUp : TierState → Option TierState
  | .survival => some .constrained
  | .constrained => some .comfortable
  | .comfortable => some .full
  | .full => none

/-- The highest tier that an estimate sustains. -/
def classifyBweTier (bweBps : ℕ) : TierState :=
  if fullFloorBps ≤ bweBps then .full
  else if comfortableFloorBps ≤ bweBps then .comfortable
  else if constrainedFloorBps ≤ bweBps then .constrained
  else .survival

/-- The downgrade guard, which has no state. -/
def TierDowngradeGuard.observe (currentTier : TierState) (bweBps : ℕ) : TierState :=
  match downgradeTriggerBps currentTier with
  | none => currentTier
  | some trigger => if bweBps < trigger then tierStepDown currentTier else currentTier

/-- The ticks of headroom that an upgrade takes, `UPGRADE_HOLD_TICKS`. -/
def upgradeHoldTicks : ℕ := 50

/-- The upgrade guard: the consecutive ticks with headroom so far. -/
structure TierUpgradeGuard where
  holdTicks : ℕ
  deriving DecidableEq, Repr

namespace TierUpgradeGuard

/-- A guard that has counted nothing. -/
def new : TierUpgradeGuard := ⟨0⟩

/-- One tick of the upgrade guard. -/
def observe (g : TierUpgradeGuard) (currentTier candidateTier : TierState) :
    TierState × TierUpgradeGuard :=
  match tierStepUp currentTier with
  | none => (currentTier, ⟨0⟩)
  | some nextTier =>
    if nextTier ≤ candidateTier then
      let holdTicks := g.holdTicks + 1
      if upgradeHoldTicks ≤ holdTicks then (nextTier, ⟨0⟩) else (currentTier, ⟨holdTicks⟩)
    else
      (currentTier, ⟨0⟩)

end TierUpgradeGuard

/-- The tier emitter. -/
structure GovernorTierEmitter where
  upgradeGuard : TierUpgradeGuard
  deriving DecidableEq, Repr

namespace GovernorTierEmitter

/-- An emitter with no hold. -/
def new : GovernorTierEmitter := ⟨.new⟩

/-- One tick of the emitter: a downgrade fires at once and restarts the hold, otherwise the upgrade
guard decides. -/
def tick (e : GovernorTierEmitter) (currentTier : TierState) (bweBps : ℕ) :
    TierState × GovernorTierEmitter :=
  let candidate := classifyBweTier bweBps
  let afterDowngrade := TierDowngradeGuard.observe currentTier bweBps
  if afterDowngrade < currentTier then
    (afterDowngrade, ⟨.new⟩)
  else
    let (tier, upgradeGuard) := e.upgradeGuard.observe currentTier candidate
    (tier, ⟨upgradeGuard⟩)

end GovernorTierEmitter

/-! ## What a tick can do -/

/-- The estimate is below four fifths of the tier's floor. -/
def Below (tier : TierState) (bweBps : ℕ) : Prop :=
  ∃ floor ∈ tierFloorBps tier, 5 * bweBps < 4 * floor

/-- The estimate is at or above the floor of the next tier. -/
def Headroom (tier : TierState) (bweBps : ℕ) : Prop :=
  ∃ next ∈ tierStepUp tier, ∃ floor ∈ tierFloorBps next, floor ≤ bweBps

/-- Whether an estimate is below a tier can be decided. -/
instance (tier : TierState) (bweBps : ℕ) : Decidable (Below tier bweBps) :=
  inferInstanceAs (Decidable (∃ floor ∈ tierFloorBps tier, 5 * bweBps < 4 * floor))

/-- Whether there is headroom can be decided. -/
instance (tier : TierState) (bweBps : ℕ) : Decidable (Headroom tier bweBps) :=
  inferInstanceAs
    (Decidable (∃ next ∈ tierStepUp tier, ∃ floor ∈ tierFloorBps next, floor ≤ bweBps))

/-- A step up is one step. -/
theorem rank_of_tierStepUp {tier next : TierState} (h : tierStepUp tier = some next) :
    next.rank = tier.rank + 1 := by
  cases tier <;> cases h <;> rfl

/-- A tier with a floor has one step below it. -/
theorem rank_tierStepDown {tier : TierState} {bweBps : ℕ} (h : Below tier bweBps) :
    (tierStepDown tier).rank + 1 = tier.rank := by
  obtain ⟨floor, hfloor, -⟩ := h
  cases tier with
  | survival => cases hfloor
  | constrained => rfl
  | comfortable => rfl
  | full => rfl

/-- The trigger `floor * 4 / 5` is four fifths of the floor, since all floors are multiples of
five. -/
theorem downgrade_observe (tier : TierState) (bweBps : ℕ) :
    TierDowngradeGuard.observe tier bweBps
      = if Below tier bweBps then tierStepDown tier else tier := by
  unfold TierDowngradeGuard.observe downgradeTriggerBps Below
  cases tier with
  | survival => simp [tierFloorBps]
  | constrained =>
    simp only [tierFloorBps, Option.map_some, Option.mem_some_iff, exists_eq_left']
    exact if_congr (by unfold constrainedFloorBps; omega) rfl rfl
  | comfortable =>
    simp only [tierFloorBps, Option.map_some, Option.mem_some_iff, exists_eq_left']
    exact if_congr (by unfold comfortableFloorBps; omega) rfl rfl
  | full =>
    simp only [tierFloorBps, Option.map_some, Option.mem_some_iff, exists_eq_left']
    exact if_congr (by unfold fullFloorBps; omega) rfl rfl

/-- An estimate sustains a tier above the bottom when it reaches the tier's floor. -/
theorem le_classifyBweTier {tier : TierState} {floor bweBps : ℕ}
    (h : tierFloorBps tier = some floor) : tier ≤ classifyBweTier bweBps ↔ floor ≤ bweBps := by
  have hfloors : constrainedFloorBps < comfortableFloorBps ∧
      comfortableFloorBps < fullFloorBps := by decide
  rw [TierState.le_iff_rank]
  unfold classifyBweTier
  cases tier with
  | survival => cases h
  | constrained =>
    obtain rfl : constrainedFloorBps = floor := Option.some.inj h
    split_ifs <;> simp only [TierState.rank] <;> omega
  | comfortable =>
    obtain rfl : comfortableFloorBps = floor := Option.some.inj h
    split_ifs <;> simp only [TierState.rank] <;> omega
  | full =>
    obtain rfl : fullFloorBps = floor := Option.some.inj h
    split_ifs <;> simp only [TierState.rank] <;> omega

/-- There is headroom when the candidate tier is at least the next tier. -/
theorem headroom_iff {tier next : TierState} {bweBps : ℕ} (h : tierStepUp tier = some next) :
    Headroom tier bweBps ↔ next ≤ classifyBweTier bweBps := by
  obtain ⟨floor, hfloor⟩ : ∃ floor, tierFloorBps next = some floor := by
    cases tier <;> cases h <;> exact ⟨_, rfl⟩
  unfold Headroom
  rw [le_classifyBweTier hfloor]
  simp only [h, hfloor, Option.mem_some_iff, exists_eq_left']

/-- An estimate below four fifths of a tier's floor gives no headroom from the tier just below it
or from any tier above that. -/
theorem not_headroom_of_below {tier upper : TierState} {bweBps : ℕ} (h : Below upper bweBps)
    (hrank : upper.rank ≤ tier.rank + 1) : ¬ Headroom tier bweBps := by
  rintro ⟨next, hnext, hroom⟩
  obtain ⟨floor, hfloor, hlt⟩ := h
  have hle : next ≤ classifyBweTier bweBps := (headroom_iff hnext).mp ⟨next, hnext, hroom⟩
  have hupper : upper ≤ classifyBweTier bweBps := by
    rw [TierState.le_iff_rank] at hle ⊢
    rw [rank_of_tierStepUp hnext] at hle
    exact hrank.trans hle
  have hreach : floor ≤ bweBps := (le_classifyBweTier hfloor).mp hupper
  omega

/-- A lower estimate is below the tier as well. -/
theorem Below.mono {tier : TierState} {b b' : ℕ} (hb : b ≤ b') (h : Below tier b') :
    Below tier b := by
  obtain ⟨floor, hfloor, hlt⟩ := h
  exact ⟨floor, hfloor, by omega⟩

/-- A higher one leaves headroom as well. -/
theorem Headroom.mono {tier : TierState} {b b' : ℕ} (hb : b ≤ b') (h : Headroom tier b) :
    Headroom tier b' := by
  obtain ⟨next, hnext, floor, hfloor, hle⟩ := h
  exact ⟨next, hnext, floor, hfloor, hle.trans hb⟩

namespace GovernorTierEmitter

variable (e : GovernorTierEmitter) (tier : TierState) (bweBps : ℕ)

/-- All that a tick can do: go down, go up, count one more tick of the hold, or restart the hold. -/
theorem tick_cases :
    (Below tier bweBps ∧ e.tick tier bweBps = (tierStepDown tier, ⟨⟨0⟩⟩)) ∨
    (∃ next, tierStepUp tier = some next ∧ Headroom tier bweBps ∧
      upgradeHoldTicks ≤ e.upgradeGuard.holdTicks + 1 ∧ e.tick tier bweBps = (next, ⟨⟨0⟩⟩)) ∨
    (Headroom tier bweBps ∧ e.upgradeGuard.holdTicks + 1 < upgradeHoldTicks ∧
      e.tick tier bweBps = (tier, ⟨⟨e.upgradeGuard.holdTicks + 1⟩⟩)) ∨
    (¬ Below tier bweBps ∧ ¬ Headroom tier bweBps ∧ e.tick tier bweBps = (tier, ⟨⟨0⟩⟩)) := by
  -- The downgrade is looked at first, and clears the hold.
  by_cases hbelow : Below tier bweBps
  · have hdown : tierStepDown tier < tier := by
      rw [TierState.lt_iff_rank]
      have hrank := rank_tierStepDown hbelow
      omega
    refine Or.inl ⟨hbelow, ?_⟩
    unfold tick
    simp only [downgrade_observe, if_pos hbelow, if_pos hdown]
    rfl
  · have htick : e.tick tier bweBps
        = ((e.upgradeGuard.observe tier (classifyBweTier bweBps)).1,
          ⟨(e.upgradeGuard.observe tier (classifyBweTier bweBps)).2⟩) := by
      have hstay : ¬ tier < tier := Nat.lt_irrefl tier.rank
      unfold tick
      simp only [downgrade_observe, if_neg hbelow, if_neg hstay]
    refine Or.inr ?_
    rw [htick]
    unfold TierUpgradeGuard.observe
    -- Otherwise the guard decides; at the top there is no headroom.
    cases hup : tierStepUp tier with
    | none =>
      have hnone : ¬ Headroom tier bweBps := by
        rintro ⟨next, hnext, -⟩
        rw [hup] at hnext
        cases hnext
      exact Or.inr (Or.inr ⟨hbelow, hnone, rfl⟩)
    | some next =>
      by_cases hroom : Headroom tier bweBps
      · have hnext : next ≤ classifyBweTier bweBps := (headroom_iff hup).mp hroom
        by_cases hhold : upgradeHoldTicks ≤ e.upgradeGuard.holdTicks + 1
        · refine Or.inl ⟨next, rfl, hroom, hhold, ?_⟩
          simp only [if_pos hnext, if_pos hhold]
        · refine Or.inr (Or.inl ⟨hroom, Nat.lt_of_not_le hhold, ?_⟩)
          simp only [if_pos hnext, if_neg hhold]
      · have hnext : ¬ next ≤ classifyBweTier bweBps := mt (headroom_iff hup).mpr hroom
        refine Or.inr (Or.inr ⟨hbelow, hroom, ?_⟩)
        simp only [if_neg hnext]

variable {e tier bweBps}

/-- An estimate below the trigger takes the tier down. -/
theorem tick_of_below (h : Below tier bweBps) :
    e.tick tier bweBps = (tierStepDown tier, ⟨⟨0⟩⟩) := by
  have hroom : ¬ Headroom tier bweBps := not_headroom_of_below h (Nat.le_succ _)
  obtain ⟨-, ht⟩ | ⟨-, -, hr, -⟩ | ⟨hr, -⟩ | ⟨hb, -⟩ := e.tick_cases tier bweBps
  · exact ht
  · exact absurd hr hroom
  · exact absurd hr hroom
  · exact absurd h hb

/-- An estimate that is not below the trigger does not take the tier down. -/
theorem le_tick_of_not_below (h : ¬ Below tier bweBps) :
    tier.rank ≤ (e.tick tier bweBps).1.rank := by
  obtain ⟨hb, -⟩ | ⟨next, hup, -, -, ht⟩ | ⟨-, -, ht⟩ | ⟨-, -, ht⟩ := e.tick_cases tier bweBps
  · exact absurd hb h
  · rw [ht, rank_of_tierStepUp hup]
    exact Nat.le_succ _
  · rw [ht]
  · rw [ht]

/-- Without headroom the tier does not go up and the hold restarts. -/
theorem tick_of_not_headroom (h : ¬ Headroom tier bweBps) :
    (e.tick tier bweBps).1.rank ≤ tier.rank ∧
      (e.tick tier bweBps).2.upgradeGuard.holdTicks = 0 := by
  obtain ⟨hb, ht⟩ | ⟨-, -, hr, -⟩ | ⟨hr, -⟩ | ⟨-, -, ht⟩ := e.tick_cases tier bweBps
  · rw [ht]
    exact ⟨(Nat.le_succ _).trans (rank_tierStepDown hb).le, rfl⟩
  · exact absurd hr h
  · exact absurd hr h
  · rw [ht]
    exact ⟨le_rfl, rfl⟩

/-- A tick goes up at most one step, and then the hold restarts. -/
theorem tick_le (e : GovernorTierEmitter) (tier : TierState) (bweBps : ℕ) :
    (e.tick tier bweBps).1.rank ≤ tier.rank ∨
    (e.tick tier bweBps).1.rank = tier.rank + 1 ∧
      (e.tick tier bweBps).2.upgradeGuard.holdTicks = 0 := by
  obtain ⟨hb, ht⟩ | ⟨next, hup, -, -, ht⟩ | ⟨-, -, ht⟩ | ⟨-, -, ht⟩ := e.tick_cases tier bweBps
  · rw [ht]
    exact Or.inl ((Nat.le_succ _).trans (rank_tierStepDown hb).le)
  · rw [ht]
    exact Or.inr ⟨rank_of_tierStepUp hup, rfl⟩
  · rw [ht]
    exact Or.inl le_rfl
  · rw [ht]
    exact Or.inl le_rfl

/-! ## Two emitters side by side -/

/-- The first tier and emitter are ahead of the second: at a higher tier, or at the same tier with
at least the same hold. -/
def Ahead (a b : TierState × GovernorTierEmitter) : Prop :=
  b.1.rank < a.1.rank ∨
    b.1.rank = a.1.rank ∧ b.2.upgradeGuard.holdTicks ≤ a.2.upgradeGuard.holdTicks

/-- The one behind is in no higher tier. -/
theorem Ahead.tier_le {a b : TierState × GovernorTierEmitter} (h : Ahead a b) : b.1 ≤ a.1 := by
  rw [TierState.le_iff_rank]
  rcases h with h | ⟨h, -⟩
  · exact h.le
  · exact h.le

variable {a b : GovernorTierEmitter} {ta tb : TierState} {ba bb : ℕ}

/-- A higher tier stays ahead. It can meet the lower one only by going down, and then the estimate
gives the lower one no headroom, or when the lower one goes up, which restarts its hold. -/
theorem tick_mono_of_lt (hlt : tb.rank < ta.rank) (hb : bb ≤ ba) :
    Ahead (a.tick ta ba) (b.tick tb bb) := by
  have hup := b.tick_le tb bb
  unfold Ahead
  by_cases hbelow : Below ta ba
  · have hdown : (a.tick ta ba).1.rank + 1 = ta.rank := by
      rw [tick_of_below hbelow]
      exact rank_tierStepDown hbelow
    by_cases hnear : ta.rank ≤ tb.rank + 1
    · have hroom : ¬ Headroom tb bb := not_headroom_of_below (hbelow.mono hb) hnear
      obtain ⟨hrank, hhold⟩ := tick_of_not_headroom (e := b) hroom
      omega
    · omega
  · have hstay : ta.rank ≤ (a.tick ta ba).1.rank := le_tick_of_not_below hbelow
    omega

/-- At the same tier, the emitter with the longer hold stays ahead. -/
theorem tick_mono_of_eq {tier : TierState}
    (hhold : b.upgradeGuard.holdTicks ≤ a.upgradeGuard.holdTicks) (hb : bb ≤ ba) :
    Ahead (a.tick tier ba) (b.tick tier bb) := by
  -- Both are on one tier, and the cases are what the faster one does.
  unfold Ahead
  obtain ⟨hbelow, ht⟩ | ⟨next, hnext, -, -, ht⟩ | ⟨-, hlt, ht⟩ | ⟨-, hroom, ht⟩ :=
    a.tick_cases tier ba
  · rw [ht, tick_of_below (hbelow.mono hb)]
    exact Or.inr ⟨rfl, le_rfl⟩
  · have hrank := rank_of_tierStepUp hnext
    have hup := b.tick_le tier bb
    rw [ht]
    simp only
    omega
  · rw [ht]
    obtain ⟨hbelow', ht'⟩ | ⟨-, -, -, hge, -⟩ | ⟨-, -, ht'⟩ | ⟨-, -, ht'⟩ := b.tick_cases tier bb
    · rw [ht']
      exact Or.inl (rank_tierStepDown hbelow').le
    · omega
    · rw [ht']
      exact Or.inr ⟨rfl, Nat.succ_le_succ hhold⟩
    · rw [ht']
      exact Or.inr ⟨rfl, Nat.zero_le _⟩
  · obtain ⟨hrank, hzero⟩ := tick_of_not_headroom (e := b) (mt (Headroom.mono hb) hroom)
    rw [ht]
    simp only
    omega

/-- What is ahead stays ahead when it sees at least the same bandwidth. -/
theorem tick_mono (h : Ahead (ta, a) (tb, b)) (hb : bb ≤ ba) :
    Ahead (a.tick ta ba) (b.tick tb bb) := by
  rcases h with hlt | ⟨heq, hhold⟩
  · exact tick_mono_of_lt hlt hb
  · obtain rfl : tb = ta := TierState.rank_injective heq
    exact tick_mono_of_eq hhold hb

end GovernorTierEmitter

end LowBand.Platform
