import LowBand.Lib.Run
import Mathlib.Data.Rat.Lemmas
import Mathlib.Tactic.Linarith
import Mathlib.Tactic.Positivity

/-!
# Token buckets

A bucket fills at a rate that can be changed, up to a cap that depends on the rate, and pays for
what is sent. Time passes only in `pass`; between two of these all operations happen at one moment.
`spentIn`, `supplyIn` and `capsAt` read a list of operations over time: what is spent in a window,
the integral of the rate over it, and the caps in force at a moment (several, when the rate changes
at that moment).

A bucket whose rates are not negative and that spends only what it has keeps its balance between
zero and its cap (`Conforming.run`), and spends in no window more than a cap in force at its start
and the supply of the window (`exists_cap_spentIn_le`).
-/

namespace Lib

/-- What happens to a bucket. -/
inductive BucketOp where
  /-- Time passes. -/
  | pass (dt : ℚ)
  /-- The rate changes. -/
  | setRate (rate : ℚ)
  /-- Tokens are spent. -/
  | spend (n : ℚ)

/-- A bucket: its balance and the rate at which it fills. -/
structure Bucket where
  /-- The tokens in it. -/
  tokens : ℚ
  /-- Tokens a unit of time. -/
  rate : ℚ

namespace Bucket

variable (cap : ℚ → ℚ)

/-- One operation. -/
def step (b : Bucket) : BucketOp → Bucket
  | .pass dt => { b with tokens := min (b.tokens + b.rate * dt) (cap b.rate) }
  | .setRate rate => ⟨min b.tokens (cap rate), rate⟩
  | .spend n => { b with tokens := b.tokens - n }

/-- Time does not run backwards, rates are not negative, and a bucket spends what it has. -/
def Allowed (b : Bucket) : BucketOp → Prop
  | .pass dt => 0 ≤ dt
  | .setRate rate => 0 ≤ rate
  | .spend n => 0 ≤ n ∧ n ≤ b.tokens

/-- The balance lies between zero and the cap of the rate, which is not negative. -/
structure Conforming (b : Bucket) : Prop where
  /-- The rate is not negative. -/
  rate_nonneg : 0 ≤ b.rate
  /-- The balance is not negative. -/
  tokens_nonneg : 0 ≤ b.tokens
  /-- The balance does not exceed the cap. -/
  tokens_le : b.tokens ≤ cap b.rate

variable {cap}

/-- An allowed operation keeps the balance in its bounds. -/
theorem Conforming.step (hcap : ∀ r, 0 ≤ r → 0 ≤ cap r) {b : Bucket} {op : BucketOp}
    (h : b.Conforming cap) (hop : b.Allowed op) : (b.step cap op).Conforming cap := by
  obtain ⟨hrate, htokens, hle⟩ := h
  cases op with
  | pass dt =>
    have hgain : 0 ≤ b.rate * dt := mul_nonneg hrate hop
    exact ⟨hrate, le_min (by linarith) (hcap _ hrate), min_le_right _ _⟩
  | setRate rate => exact ⟨hop, le_min htokens (hcap _ hop), min_le_right _ _⟩
  | spend n =>
    obtain ⟨hn, hn'⟩ := hop
    exact ⟨hrate, sub_nonneg.mpr hn', (sub_le_self _ hn).trans hle⟩

/-- A run of allowed operations keeps the balance in its bounds. -/
theorem Conforming.run (hcap : ∀ r, 0 ≤ r → 0 ≤ cap r) {b : Bucket} {ops : List BucketOp}
    (h : b.Conforming cap) (hops : Guarded (Bucket.step cap) Allowed b ops) :
    (Lib.run (Bucket.step cap) b ops).Conforming cap :=
  run_invariant (fun _ _ hb hop => Conforming.step hcap hb hop) hops h

end Bucket

/-! ## Operations over time -/

/-- The length of the part of `[s, e]` that lies in the window `[a, w]`. -/
def overlap (a w s e : ℚ) : ℚ := max 0 (min w e - max a s)

/-- What the operations, begun at time `t`, spend in the window `[a, w]`. -/
def spentIn (a w : ℚ) : ℚ → List BucketOp → ℚ
  | _, [] => 0
  | t, .pass dt :: ops => spentIn a w (t + dt) ops
  | t, .setRate _ :: ops => spentIn a w t ops
  | t, .spend n :: ops => (if a ≤ t ∧ t ≤ w then n else 0) + spentIn a w t ops

/-- The integral of the rate over the window `[a, w]`. -/
def supplyIn (a w : ℚ) : ℚ → ℚ → List BucketOp → ℚ
  | _, _, [] => 0
  | t, rate, .pass dt :: ops => rate * overlap a w t (t + dt) + supplyIn a w (t + dt) rate ops
  | t, _, .setRate rate :: ops => supplyIn a w t rate ops
  | t, rate, .spend _ :: ops => supplyIn a w t rate ops

/-- The caps in force at time `a`. -/
def capsAt (cap : ℚ → ℚ) (a : ℚ) : ℚ → ℚ → List BucketOp → List ℚ
  | t, rate, [] => if t ≤ a then [cap rate] else []
  | t, rate, .pass dt :: ops =>
    (if t ≤ a ∧ a ≤ t + dt then [cap rate] else []) ++ capsAt cap a (t + dt) rate ops
  | t, rate, .setRate rate' :: ops =>
    (if t = a then [cap rate] else []) ++ capsAt cap a t rate' ops
  | t, rate, .spend _ :: ops => capsAt cap a t rate ops

/-- Two intervals overlap by no negative length. -/
theorem overlap_nonneg (a w s e : ℚ) : 0 ≤ overlap a w s e := le_max_left _ _

/-- A piece inside the window counts in full. -/
theorem overlap_of_le {a w s e : ℚ} (ha : a ≤ s) (hw : e ≤ w) (hse : s ≤ e) :
    overlap a w s e = e - s := by
  unfold overlap
  rw [min_eq_right hw, max_eq_right ha, max_eq_right (sub_nonneg.mpr hse)]

/-- Nothing is spent in a window that is over. -/
theorem spentIn_of_lt {a w t : ℚ} {ops : List BucketOp} (h : w < t) {b : Bucket}
    {cap : ℚ → ℚ} (hops : Guarded (Bucket.step cap) Bucket.Allowed b ops) :
    spentIn a w t ops = 0 := by
  induction ops generalizing t b with
  | nil => rfl
  | cons op ops ih =>
    obtain ⟨hop, hops⟩ := hops
    cases op with
    | pass dt => exact ih (lt_add_of_lt_of_nonneg h hop) hops
    | setRate rate => exact ih h hops
    | spend n =>
      rw [spentIn, if_neg (fun hin => absurd hin.2 (not_le.mpr h)), zero_add]
      exact ih h hops

/-- The integral of a rate that is not negative is not negative. -/
theorem supplyIn_nonneg {a w t : ℚ} {ops : List BucketOp} {cap : ℚ → ℚ} (b : Bucket)
    (hrate : 0 ≤ b.rate) (hops : Guarded (Bucket.step cap) Bucket.Allowed b ops) :
    0 ≤ supplyIn a w t b.rate ops := by
  induction ops generalizing t b with
  | nil => exact le_rfl
  | cons op ops ih =>
    obtain ⟨hop, hops⟩ := hops
    cases op with
    | pass dt =>
      exact add_nonneg (mul_nonneg hrate (overlap_nonneg _ _ _ _))
        (ih (b.step cap (.pass dt)) hrate hops)
    | setRate rate => exact ih (b.step cap (.setRate rate)) hop hops
    | spend n => exact ih (b.step cap (.spend n)) hrate hops

section

variable {cap : ℚ → ℚ} (hcap : ∀ r, 0 ≤ r → 0 ≤ cap r)

include hcap

/-- Once the window has begun, what is spent in it is at most the balance and the supply to come. -/
theorem spentIn_le_tokens {a w t : ℚ} {ops : List BucketOp} {b : Bucket} (ha : a ≤ t)
    (hb : b.Conforming cap) (hops : Guarded (Bucket.step cap) Bucket.Allowed b ops) :
    spentIn a w t ops ≤ b.tokens + supplyIn a w t b.rate ops := by
  -- By induction on the operations: each adds to the balance no more than it adds to the supply.
  induction ops generalizing t b with
  | nil => exact add_nonneg hb.tokens_nonneg le_rfl
  | cons op ops ih =>
    obtain ⟨hop, hops⟩ := hops
    have hb' := hb.step hcap hop
    cases op with
    | pass dt =>
      have hdt : 0 ≤ dt := hop
      rw [spentIn, supplyIn]
      rcases le_or_gt (t + dt) w with hw | hw
      · have hrec := ih (ha.trans (le_add_of_nonneg_right hdt)) hb' hops
        have hgain : (b.step cap (.pass dt)).tokens ≤ b.tokens + b.rate * dt := min_le_left _ _
        rw [overlap_of_le ha hw (le_add_of_nonneg_right hdt), add_sub_cancel_left]
        change _ ≤ _ + supplyIn a w (t + dt) b.rate ops at hrec
        linarith
      · -- The window ends while time passes: nothing more is spent in it.
        rw [spentIn_of_lt hw hops]
        have hsupply : 0 ≤ supplyIn a w (t + dt) b.rate ops :=
          supplyIn_nonneg (b.step cap (.pass dt)) hb.rate_nonneg hops
        have hpiece := mul_nonneg hb.rate_nonneg (overlap_nonneg a w t (t + dt))
        linarith [hb.tokens_nonneg]
    | setRate rate =>
      have hrec := ih ha hb' hops
      have hmin : (b.step cap (.setRate rate)).tokens ≤ b.tokens := min_le_left _ _
      rw [spentIn, supplyIn]
      change _ ≤ _ + supplyIn a w t rate ops at hrec
      linarith
    | spend n =>
      have hrec := ih ha hb' hops
      change _ ≤ b.tokens - n + supplyIn a w t b.rate ops at hrec
      rw [spentIn, supplyIn]
      split
      · linarith
      · linarith [hop.1]

end

/-- The cap at the start of the operations is in force then. -/
theorem cap_mem_capsAt {cap : ℚ → ℚ} {t : ℚ} {ops : List BucketOp} (b : Bucket)
    (hops : Guarded (Bucket.step cap) Bucket.Allowed b ops) :
    cap b.rate ∈ capsAt cap t t b.rate ops := by
  induction ops generalizing b with
  | nil => simp [capsAt]
  | cons op ops ih =>
    obtain ⟨hop, hops⟩ := hops
    cases op with
    | pass dt =>
      have hdt : 0 ≤ dt := hop
      simp [capsAt, hdt]
    | setRate rate => simp [capsAt]
    | spend n => exact ih (b.step cap (.spend n)) hops

/-- What is spent in a window is at most a cap in force at its start and the supply of the
window. -/
theorem exists_cap_spentIn_le {cap : ℚ → ℚ} (hcap : ∀ r, 0 ≤ r → 0 ≤ cap r) {a w t : ℚ}
    {ops : List BucketOp} (b : Bucket) (ht : t ≤ a) (hb : b.Conforming cap)
    (hops : Guarded (Bucket.step cap) Bucket.Allowed b ops) :
    ∃ c ∈ capsAt cap a t b.rate ops, spentIn a w t ops ≤ c + supplyIn a w t b.rate ops := by
  rcases eq_or_lt_of_le ht with rfl | ht
  · refine ⟨cap b.rate, cap_mem_capsAt b hops, ?_⟩
    have hle := spentIn_le_tokens (w := w) hcap (le_refl t) hb hops
    linarith [hb.tokens_le]
  -- Until the window begins nothing counts. It begins in a piece of time or after all of them.
  induction ops generalizing t b with
  | nil =>
    refine ⟨cap b.rate, by simp [capsAt, ht.le], ?_⟩
    simpa [spentIn, supplyIn] using hcap _ hb.rate_nonneg
  | cons op ops ih =>
    obtain ⟨hop, hops⟩ := hops
    have hb' := hb.step hcap hop
    cases op with
    | pass dt =>
      have hpiece := mul_nonneg hb.rate_nonneg (overlap_nonneg a w t (t + dt))
      rcases le_or_gt a (t + dt) with ha | ha
      · -- The window begins while this time passes, with a balance of at most the cap.
        refine ⟨cap b.rate, by simp [capsAt, ht.le, ha], ?_⟩
        have hle := spentIn_le_tokens (w := w) hcap ha hb' hops
        have hmin : (b.step cap (.pass dt)).tokens ≤ cap b.rate := min_le_right _ _
        change _ ≤ _ + supplyIn a w (t + dt) b.rate ops at hle
        rw [spentIn, supplyIn]
        linarith
      · obtain ⟨c, hc, hle⟩ := ih (b.step cap (.pass dt)) ha.le hb' hops ha
        refine ⟨c, List.mem_append_right _ hc, ?_⟩
        change _ ≤ c + supplyIn a w (t + dt) b.rate ops at hle
        rw [spentIn, supplyIn]
        linarith
    | setRate rate =>
      obtain ⟨c, hc, hle⟩ := ih (b.step cap (.setRate rate)) ht.le hb' hops ht
      exact ⟨c, List.mem_append_right _ hc, hle⟩
    | spend n =>
      -- What is spent here is spent before the window.
      obtain ⟨c, hc, hle⟩ := ih (b.step cap (.spend n)) ht.le hb' hops ht
      refine ⟨c, hc, ?_⟩
      rw [spentIn, if_neg (fun hin => absurd hin.1 (not_le.mpr ht)), zero_add]
      exact hle

end Lib
