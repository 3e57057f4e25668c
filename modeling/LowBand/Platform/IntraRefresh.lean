import LowBand.Lib.Run
import Mathlib.Data.List.Count
import Mathlib.Data.Nat.ChineseRemainder
import Mathlib.Data.Nat.Prime.Basic

/-!
# Intra refresh under temporal layer drops

`IntraRefreshState` (`core/platform/src/intra_refresh.rs`) intra-codes one column band per frame, in
turn. `TemporalSvcController` (`core/platform/src/temporal_svc.rs`) gives every frame a temporal
layer and drops the layers from its drop floor on. `GearBEncoder` calls both once per encoded frame,
as the two modules prescribe, with congestion updates at any moments in between.

Frame `n` is a fixed function of `n` and of the drop floor (`frameAt`): the sweep is at column
`(n - 1) % columns` and the layers repeat every four frames. So while the drop floor is held, the
frames of a run are a window of consecutive `frameAt` (`emitted_held`), and whether a column is
refreshed in a forwarded frame asks for a number with two given remainders in that window. When the
number of columns is odd it is prime to the layers' period and there is one
(`exists_mod_eq_and_mod_eq`). When it is even and a layer is dropped, all forwarded frames have even
numbers and sweep odd columns only (`odd_of_forwarded`), so column 0 never reaches the decoder.
-/

namespace LowBand.Platform

open Lib

/-! ## The sweep -/

/-- The encoding mode of a frame. -/
inductive IntraRefreshFrame
  | keyframe
  | columnSweep (col : ℕ)
  deriving DecidableEq, Repr

/-- The sweep state of a stream. Its numbers stay below `columns`, so the `u32` additions of the
source do not wrap. -/
structure IntraRefreshState where
  columns : ℕ
  nextCol : ℕ
  started : Bool
  deriving DecidableEq, Repr

namespace IntraRefreshState

/-- A stream with `columns` bands. No bands at all is a panic. -/
def new (columns : ℕ) : Option IntraRefreshState :=
  if 0 < columns then some ⟨columns, 0, false⟩ else none

/-- One frame: the keyframe first, then the bands in turn. -/
def advance (s : IntraRefreshState) : IntraRefreshFrame × IntraRefreshState :=
  if s.started then
    (.columnSweep s.nextCol, { s with nextCol := (s.nextCol + 1) % s.columns })
  else
    (.keyframe, { s with started := true })

end IntraRefreshState

/-! ## The layers -/

/-- Two or three temporal layers. -/
inductive TemporalSvcMode
  | l1t2
  | l1t3
  deriving DecidableEq, Repr

/-- The layer `T0`. -/
def t0 : ℕ := 0

/-- The layer `T1`. -/
def t1 : ℕ := 1

/-- The layer `T2`. -/
def t2 : ℕ := 2

/-- The drop floor above all layers, `NO_DROP`. -/
def noDrop : ℕ := 255

/-- The ticks of overuse before a layer is dropped, `OVERUSE_ESCALATE_TICKS`. -/
def overuseEscalateTicks : ℕ := 3

/-- The ticks without overuse before a layer is restored, `UNDERUSE_RELAX_TICKS`. -/
def underuseRelaxTicks : ℕ := 30

/-- The layer of frame `n`. -/
def layerFor (mode : TemporalSvcMode) (n : ℕ) : ℕ :=
  match mode with
  | .l1t2 => if n % 2 = 0 then t0 else t1
  | .l1t3 =>
    match n % 4 with
    | 0 => t0
    | 2 => t1
    | _ => t2

/-- The highest layer of a mode. -/
def topLayer : TemporalSvcMode → ℕ
  | .l1t2 => t1
  | .l1t3 => t2

/-- The assigner: its mode and the frames so far, a 64-bit counter that wraps. -/
structure TemporalLayerAssigner where
  mode : TemporalSvcMode
  frameCount : ℕ
  deriving DecidableEq, Repr

namespace TemporalLayerAssigner

/-- The layer of the next frame. -/
def nextLayer (a : TemporalLayerAssigner) : ℕ × TemporalLayerAssigner :=
  (layerFor a.mode a.frameCount, { a with frameCount := (a.frameCount + 1) % 2 ^ 64 })

end TemporalLayerAssigner

/-- The drop controller. -/
structure TemporalSvcController where
  assigner : TemporalLayerAssigner
  dropFloor : ℕ
  overuseTicks : ℕ
  underuseTicks : ℕ
  deriving DecidableEq, Repr

namespace TemporalSvcController

/-- A controller that drops nothing. -/
def new (mode : TemporalSvcMode) : TemporalSvcController := ⟨⟨mode, 0⟩, noDrop, 0, 0⟩

/-- One more layer is dropped. -/
def escalate (c : TemporalSvcController) : TemporalSvcController :=
  { c with
    dropFloor :=
      match c.assigner.mode with
      | .l1t2 => t1
      | .l1t3 => if c.dropFloor = noDrop then t2 else t1 }

/-- One layer is restored. -/
def relax (c : TemporalSvcController) : TemporalSvcController :=
  { c with
    dropFloor :=
      match c.assigner.mode with
      | .l1t2 => noDrop
      | .l1t3 => if c.dropFloor ≤ t1 then t2 else noDrop }

/-- A governor tick. -/
def update (c : TemporalSvcController) (overuse : Bool) : TemporalSvcController :=
  if overuse then
    let c := { c with overuseTicks := c.overuseTicks + 1, underuseTicks := 0 }
    if overuseEscalateTicks ≤ c.overuseTicks then { c.escalate with overuseTicks := 0 } else c
  else
    let c := { c with underuseTicks := c.underuseTicks + 1, overuseTicks := 0 }
    if underuseRelaxTicks ≤ c.underuseTicks then { c.relax with underuseTicks := 0 } else c

/-- The next frame's layer and whether the frame is withheld. -/
def nextFrame (c : TemporalSvcController) : (ℕ × Bool) × TemporalSvcController :=
  let (layer, assigner) := c.assigner.nextLayer
  ((layer, decide (c.dropFloor ≤ layer)), { c with assigner := assigner })

/-- An update leaves the assigner alone and never puts the floor at the base layer. -/
theorem update_spec (c : TemporalSvcController) (overuse : Bool) (h : t0 < c.dropFloor) :
    (c.update overuse).assigner = c.assigner ∧ t0 < (c.update overuse).dropFloor := by
  -- The floor goes down to the second layer at the lowest, and up from there.
  cases overuse with
  | true =>
    unfold update escalate
    simp only [if_true]
    split
    · refine ⟨rfl, ?_⟩
      dsimp only
      split
      · decide
      · split <;> decide
    · exact ⟨rfl, h⟩
  | false =>
    unfold update relax
    simp only [Bool.false_eq_true, if_false]
    split
    · refine ⟨rfl, ?_⟩
      dsimp only
      split
      · decide
      · split <;> decide
    · exact ⟨rfl, h⟩

end TemporalSvcController

/-! ## The encoder loop -/

/-- What happens to the encoder: a frame is encoded, or the governor ticks. -/
inductive GearBEvent
  | frame
  | update (overuse : Bool)
  deriving DecidableEq, Repr

/-- An encoded frame: what is intra-coded, the layer, and whether the frame is withheld. -/
structure EncodedFrame where
  refresh : IntraRefreshFrame
  layer : ℕ
  drop : Bool
  deriving DecidableEq, Repr

/-- The two objects of the encoder loop. -/
structure GearBEncoder where
  refresh : IntraRefreshState
  svc : TemporalSvcController
  deriving DecidableEq, Repr

namespace GearBEncoder

/-- An encoder before its first frame. -/
def new (mode : TemporalSvcMode) (columns : ℕ) : Option GearBEncoder :=
  (IntraRefreshState.new columns).map fun refresh => ⟨refresh, .new mode⟩

/-- Both objects advance once per encoded frame. -/
def step : Machine GearBEncoder GearBEvent EncodedFrame := fun s event =>
  match event with
  | .frame =>
    let (kind, refresh) := s.refresh.advance
    let ((layer, drop), svc) := s.svc.nextFrame
    ([⟨kind, layer, drop⟩], ⟨refresh, svc⟩)
  | .update overuse => ([], { s with svc := s.svc.update overuse })

/-- The drop level is the same before and after each event. -/
def Held (s : GearBEncoder) (es : List GearBEvent) : Prop :=
  Guarded (fun s e => (step s e).2)
    (fun s e => (step s e).2.svc.dropFloor = s.svc.dropFloor) s es

/-- In every run of `bound` frames with the drop level held, each column is swept in a forwarded
frame. -/
def Refreshes (s : GearBEncoder) (bound : ℕ) : Prop :=
  ∀ es, s.Held es → bound ≤ es.count .frame → ∀ col < s.refresh.columns,
    ∃ f ∈ step.emitted s es, f.refresh = .columnSweep col ∧ f.drop = false

end GearBEncoder

/-! ## Frames by number -/

/-- The layers of the frames repeat every four frames, so the wrapping counter does not disturb
them. -/
theorem layerFor_mod (mode : TemporalSvcMode) (n : ℕ) :
    layerFor mode (n % 2 ^ 64) = layerFor mode n := by
  have h2 : n % 2 ^ 64 % 2 = n % 2 := Nat.mod_mod_of_dvd n (by decide)
  have h4 : n % 2 ^ 64 % 4 = n % 4 := Nat.mod_mod_of_dvd n (by decide)
  cases mode <;> simp only [layerFor, h2, h4]

/-- Frame `n` of a stream, while the drop floor is `floor`. -/
def frameAt (mode : TemporalSvcMode) (columns floor n : ℕ) : EncodedFrame :=
  ⟨if n = 0 then .keyframe else .columnSweep ((n - 1) % columns), layerFor mode n,
    decide (floor ≤ layerFor mode n)⟩

namespace GearBEncoder

/-- The state of a stream after `n` frames. -/
structure At (mode : TemporalSvcMode) (columns n : ℕ) (s : GearBEncoder) : Prop where
  columns_eq : s.refresh.columns = columns
  started_eq : s.refresh.started = decide (0 < n)
  nextCol_eq : s.refresh.nextCol = (n - 1) % columns
  mode_eq : s.svc.assigner.mode = mode
  frameCount_eq : s.svc.assigner.frameCount = n % 2 ^ 64
  base_kept : t0 < s.svc.dropFloor

variable {mode : TemporalSvcMode} {columns n : ℕ} {s : GearBEncoder}

/-- A new stream has had no frames, and has columns. -/
theorem at_new (h : new mode columns = some s) : 0 < columns ∧ s.At mode columns 0 := by
  unfold new IntraRefreshState.new at h
  by_cases hpos : 0 < columns
  · rw [if_pos hpos, Option.map_some, Option.some.injEq] at h
    subst h
    exact ⟨hpos, rfl, rfl, (Nat.zero_mod columns).symm, rfl, rfl, (by decide : t0 < noDrop)⟩
  · rw [if_neg hpos] at h
    cases h

/-- A frame is the frame of its number. -/
theorem At.step_frame (h : s.At mode columns n) :
    (step s .frame).1 = [frameAt mode columns s.svc.dropFloor n] ∧
      (step s .frame).2.svc.dropFloor = s.svc.dropFloor ∧
      (step s .frame).2.At mode columns (n + 1) := by
  obtain ⟨⟨cols, nextCol, started⟩, ⟨⟨m, count⟩, floor, overuseTicks, underuseTicks⟩⟩ := s
  obtain ⟨hcols, hstarted, hnext, hmode, hcount, hfloor⟩ := h
  simp only at hcols hstarted hnext hmode hcount hfloor
  subst hcols hstarted hnext hmode hcount
  have hcount : (n % 2 ^ 64 + 1) % 2 ^ 64 = (n + 1) % 2 ^ 64 := Nat.mod_add_mod n (2 ^ 64) 1
  unfold step IntraRefreshState.advance TemporalSvcController.nextFrame
    TemporalLayerAssigner.nextLayer frameAt
  rw [layerFor_mod]
  -- the first frame is the keyframe and leaves the next column at 0
  rcases Nat.eq_zero_or_pos n with rfl | hn
  · exact ⟨rfl, rfl, rfl, rfl, rfl, rfl, hcount, hfloor⟩
  · have hnext : ((n - 1) % cols + 1) % cols = n % cols := by
      rw [Nat.mod_add_mod, Nat.sub_add_cancel hn]
    simp only [hn, decide_true, if_true, hn.ne', if_false]
    exact ⟨trivial, trivial, rfl, by simp, hnext, rfl, hcount, hfloor⟩

/-- A governor tick encodes nothing. -/
theorem At.step_update (h : s.At mode columns n) (overuse : Bool) :
    (step s (.update overuse)).2.At mode columns n := by
  obtain ⟨hassigner, hfloor⟩ := s.svc.update_spec overuse h.base_kept
  refine ⟨h.columns_eq, h.started_eq, h.nextCol_eq, ?_, ?_, hfloor⟩
  · show (s.svc.update overuse).assigner.mode = mode
    rw [hassigner]
    exact h.mode_eq
  · show (s.svc.update overuse).assigner.frameCount = n % 2 ^ 64
    rw [hassigner]
    exact h.frameCount_eq

/-- Every state of a stream is a state after some number of frames. -/
theorem At.finish (h : s.At mode columns n) (es : List GearBEvent) :
    (step.finish s es).At mode columns (n + es.count .frame) := by
  induction es generalizing s n with
  | nil => exact h
  | cons e es ih =>
    cases e with
    | frame =>
      rw [List.count_cons_self, Nat.add_comm (es.count .frame), ← Nat.add_assoc]
      exact ih h.step_frame.2.2
    | update overuse =>
      rw [List.count_cons_of_ne (by simp)]
      exact ih (h.step_update overuse)

/-- While the drop floor is held, the frames of a run are consecutive frames by number. -/
theorem At.emitted_held (h : s.At mode columns n) {es : List GearBEvent} (hheld : s.Held es) :
    step.emitted s es =
      (List.range' n (es.count .frame)).map (frameAt mode columns s.svc.dropFloor) := by
  induction es generalizing s n with
  | nil => rfl
  | cons e es ih =>
    obtain ⟨he, hes⟩ := hheld
    cases e with
    | frame =>
      obtain ⟨hout, -, hnext⟩ := h.step_frame
      rw [Machine.emitted, hout, ih hnext hes, he, List.count_cons_self, List.range'_succ]
      rfl
    | update overuse =>
      rw [Machine.emitted, ih (h.step_update overuse) hes, he, List.count_cons_of_ne (by simp)]
      rfl

/-- Any number of frames in a row holds the drop floor. -/
theorem held_replicate (s : GearBEncoder) (k : ℕ) : s.Held (List.replicate k .frame) := by
  induction k generalizing s with
  | zero => trivial
  | succ k ih => exact ⟨rfl, ih _⟩

end GearBEncoder

/-! ## Columns and layers meet -/

/-- Every window of `a * b` numbers has one with given remainders by `a` and by `b`, when these are
coprime. -/
theorem exists_mod_eq_and_mod_eq {a b : ℕ} (hab : a.Coprime b) (ha : 0 < a) (hb : 0 < b)
    (r t start : ℕ) :
    ∃ n, start ≤ n ∧ n < start + a * b ∧ n % a = r % a ∧ n % b = t % b := by
  obtain ⟨k, hka, hkb⟩ := Nat.chineseRemainder hab r t
  have hpos : 0 < a * b := Nat.mul_pos ha hb
  -- `k` moved into the window by multiples of `a * b`
  have hmod : start + (k + (a * b - 1) * start) % (a * b) ≡ k [MOD a * b] := by
    calc start + (k + (a * b - 1) * start) % (a * b)
        ≡ start + (k + (a * b - 1) * start) [MOD a * b] :=
          Nat.ModEq.add_left start (Nat.mod_modEq _ _)
      _ = k + a * b * start := by
          obtain ⟨c, hc⟩ : ∃ c, a * b = c + 1 := ⟨a * b - 1, by omega⟩
          rw [hc, Nat.add_sub_cancel, Nat.succ_mul]
          omega
      _ ≡ k [MOD a * b] := Nat.add_mul_mod_self_left k (a * b) start
  refine ⟨start + (k + (a * b - 1) * start) % (a * b), Nat.le_add_right _ _, ?_, ?_, ?_⟩
  · exact Nat.add_lt_add_left (Nat.mod_lt _ hpos) start
  · exact (hmod.of_dvd (Nat.dvd_mul_right a b)).trans hka
  · exact (hmod.of_dvd (Nat.dvd_mul_left b a)).trans hkb

/-- With a layer dropped, forwarded frames have even numbers. -/
theorem even_of_forwarded {mode : TemporalSvcMode} {columns floor n : ℕ}
    (hfloor : floor ≤ topLayer mode) (h : (frameAt mode columns floor n).drop = false) :
    n % 2 = 0 := by
  have hlt : layerFor mode n < floor := by simpa [frameAt] using h
  have hlt : layerFor mode n < topLayer mode := hlt.trans_le hfloor
  cases mode with
  | l1t2 =>
    simp only [layerFor, topLayer, t0, t1] at hlt
    split at hlt <;> omega
  | l1t3 =>
    simp only [layerFor, topLayer, t0, t1, t2] at hlt
    split at hlt <;> omega

/-- Frames with a number divisible by four are forwarded. -/
theorem forwarded_of_mod_four {mode : TemporalSvcMode} {columns floor n : ℕ} (hfloor : t0 < floor)
    (h : n % 4 = 0) : (frameAt mode columns floor n).drop = false := by
  have h2 : n % 2 = 0 := by omega
  have hlayer : layerFor mode n = t0 := by cases mode <;> simp only [layerFor, h, h2, if_true]
  simpa [frameAt, hlayer] using hfloor

/-- No layer is above the top layer. -/
theorem layerFor_le_topLayer (mode : TemporalSvcMode) (n : ℕ) :
    layerFor mode n ≤ topLayer mode := by
  cases mode with
  | l1t2 =>
    unfold layerFor
    dsimp only
    split <;> decide
  | l1t3 =>
    unfold layerFor
    dsimp only
    split <;> decide

/-- With a floor above the top layer, all frames are forwarded. -/
theorem forwarded_of_topLayer_lt {mode : TemporalSvcMode} {columns floor : ℕ}
    (hfloor : topLayer mode < floor) (n : ℕ) : (frameAt mode columns floor n).drop = false := by
  have hlt : layerFor mode n < floor := (layerFor_le_topLayer mode n).trans_lt hfloor
  simpa [frameAt] using hlt

/-- Frame `n` sweeps the column with the remainder of `n - 1`. -/
theorem frameAt_refresh {mode : TemporalSvcMode} {columns floor n col : ℕ} (hn : 0 < n)
    (hcol : col < columns) (h : n % columns = (col + 1) % columns) :
    (frameAt mode columns floor n).refresh = .columnSweep col := by
  have hmod : n - 1 ≡ col [MOD columns] := by
    refine Nat.ModEq.add_right_cancel' 1 ?_
    rw [Nat.sub_add_cancel hn]
    exact h
  have hcol' : (n - 1) % columns = col := Eq.trans hmod (Nat.mod_eq_of_lt hcol)
  simp only [frameAt, hn.ne', if_false, hcol']

/-- With a layer dropped and an even number of columns, forwarded frames sweep odd columns only. -/
theorem odd_of_forwarded {mode : TemporalSvcMode} {columns floor n col : ℕ}
    (hfloor : floor ≤ topLayer mode) (heven : columns % 2 = 0)
    (hfwd : (frameAt mode columns floor n).drop = false)
    (h : (frameAt mode columns floor n).refresh = .columnSweep col) : col % 2 = 1 := by
  have hn2 : n % 2 = 0 := even_of_forwarded hfloor hfwd
  by_cases hn : n = 0
  · simp [frameAt, hn] at h
  · simp only [frameAt, hn, if_false, IntraRefreshFrame.columnSweep.injEq] at h
    rw [← h, Nat.mod_mod_of_dvd (n - 1) (Nat.dvd_of_mod_eq_zero heven)]
    omega

namespace GearBEncoder

variable {mode : TemporalSvcMode} {columns n : ℕ} {s : GearBEncoder}

/-- No layer is dropped, or the number of columns is odd. -/
def SweepsMeetLayers (s : GearBEncoder) : Prop :=
  topLayer s.svc.assigner.mode < s.svc.dropFloor ∨ Odd s.refresh.columns

/-- A column is refreshed when a frame of its remainder in the window is forwarded. -/
theorem At.swept_of_window (h : s.At mode columns n) {es : List GearBEvent} (hheld : s.Held es)
    {col k : ℕ} (hcol : col < columns) (hstart : n + 1 ≤ k) (hend : k < n + es.count .frame)
    (hmod : k % columns = (col + 1) % columns)
    (hfwd : (frameAt mode columns s.svc.dropFloor k).drop = false) :
    ∃ f ∈ step.emitted s es, f.refresh = .columnSweep col ∧ f.drop = false := by
  refine ⟨frameAt mode columns s.svc.dropFloor k, ?_, frameAt_refresh (by omega) hcol hmod, hfwd⟩
  rw [h.emitted_held hheld]
  exact List.mem_map_of_mem (List.mem_range'_1.mpr ⟨by omega, hend⟩)

/-- When the columns meet the layers, `4 * columns + 1` frames refresh every column. -/
theorem At.refreshes (h : s.At mode columns n) (hpos : 0 < columns) (hmeet : s.SweepsMeetLayers) :
    s.Refreshes (4 * columns + 1) := by
  intro es hheld hframes col hcol
  rw [h.columns_eq] at hcol
  rcases hmeet with hnone | hodd
  · rw [h.mode_eq] at hnone
    obtain ⟨k, hstart, hend, hmod, -⟩ :=
      exists_mod_eq_and_mod_eq (Nat.coprime_one_right columns) hpos Nat.one_pos (col + 1) 0 (n + 1)
    exact h.swept_of_window hheld hcol hstart (by omega) hmod (forwarded_of_topLayer_lt hnone k)
  · rw [h.columns_eq] at hodd
    have hcop : columns.Coprime 4 := hodd.coprime_two_right.pow_right 2
    obtain ⟨k, hstart, hend, hmod, hfour⟩ :=
      exists_mod_eq_and_mod_eq hcop hpos (by decide) (col + 1) 0 (n + 1)
    exact h.swept_of_window hheld hcol hstart (by omega) hmod
      (forwarded_of_mod_four h.base_kept hfour)

/-- When they do not, no number of frames refreshes column 0. -/
theorem At.meet_of_refreshes (h : s.At mode columns n) (hpos : 0 < columns) {bound : ℕ}
    (href : s.Refreshes bound) : s.SweepsMeetLayers := by
  by_contra hmeet
  obtain ⟨hfloor, hodd⟩ := not_or.mp hmeet
  rw [h.mode_eq, Nat.not_lt] at hfloor
  rw [h.columns_eq, Nat.not_odd_iff] at hodd
  have hheld := s.held_replicate bound
  obtain ⟨f, hf, hcol, hdrop⟩ := href _ hheld (by simp) 0 (by rw [h.columns_eq]; exact hpos)
  rw [h.emitted_held hheld] at hf
  obtain ⟨k, -, rfl⟩ := List.mem_map.mp hf
  have := odd_of_forwarded hfloor hodd hdrop hcol
  omega

/-- In every state of every stream, with the drop level held from there on, every column is swept in
a forwarded frame within some number of frames exactly when no layer is dropped or the number of
columns is odd, and then `4 * columns + 1` frames suffice. -/
theorem refreshes_iff (mode : TemporalSvcMode) (columns : ℕ) (es : List GearBEvent)
    {s₀ : GearBEncoder} (hnew : new mode columns = some s₀) :
    ((∃ bound, (step.finish s₀ es).Refreshes bound) ↔ (step.finish s₀ es).SweepsMeetLayers) ∧
      ((step.finish s₀ es).SweepsMeetLayers →
        (step.finish s₀ es).Refreshes (4 * columns + 1)) := by
  obtain ⟨hpos, hat⟩ := at_new hnew
  have hat := hat.finish es
  have hsuff := hat.refreshes hpos
  exact ⟨⟨fun ⟨_, href⟩ => hat.meet_of_refreshes hpos href, fun hmeet => ⟨_, hsuff hmeet⟩⟩, hsuff⟩

/-- Fifteen columns under a dropped layer of `L1T2`. -/
theorem refreshes_fifteen :
    ∃ s₀, new .l1t2 15 = some s₀ ∧
      (step.finish s₀ [.update true, .update true, .update true]).Refreshes 61 := by
  refine ⟨⟨⟨15, 0, false⟩, .new .l1t2⟩, rfl, ?_⟩
  exact (refreshes_iff .l1t2 15 [.update true, .update true, .update true] rfl).2
    (.inr ⟨7, rfl⟩)

/-- Thirty columns, the number for Gear B's frame rate: after three ticks of overuse `L1T2` drops
its enhancement layer, and no number of frames refreshes all columns. -/
theorem not_refreshes_thirty :
    ∃ s₀, new .l1t2 30 = some s₀ ∧
      ¬ ∃ bound, (step.finish s₀ [.update true, .update true, .update true]).Refreshes bound := by
  have hnew : new .l1t2 30 = some ⟨⟨30, 0, false⟩, .new .l1t2⟩ := rfl
  refine ⟨_, hnew, ?_⟩
  rintro ⟨bound, href⟩
  rcases ((at_new hnew).2.finish _).meet_of_refreshes (by decide) href with hnone | ⟨k, hk⟩
  · exact absurd hnone (by decide)
  · have hk : 30 = 2 * k + 1 := hk
    omega

end GearBEncoder

end LowBand.Platform
