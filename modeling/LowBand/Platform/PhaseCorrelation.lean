import LowBand.Lib.Bytes
import LowBand.Lib.SinglePrecision
import LowBand.Lib.Table
import Mathlib.Algebra.Order.Group.Abs
import Mathlib.Data.List.Induction
import Mathlib.Data.Nat.Log

/-!
# Phase correlation

`phase_correlate` of `screen_encoder.rs` takes the averages of the rows and of the columns of two
patches of luma, and asks `correlate_1d` along each axis for the shift at which the first patch
matches the second one best. Its arithmetic is that of `f32`. The cosine and the sine, which the
standard library leaves to the platform, are parameters.

The search goes over all shifts up to the largest one but zero, reading the transform at the shift
modulo its length. Whatever the transform is, what comes of it is such a shift along one axis
(`phaseCorrelate_spec`).
-/

namespace LowBand.Platform

open Lib

/-! ## The transform -/

/-- `C32`. -/
structure C32 where
  /-- The real part. -/
  re : Float32
  /-- The imaginary part. -/
  im : Float32

namespace C32

/-- The complex number zero. -/
def zero : C32 := ⟨0, 0⟩

/-- The sum of two numbers, as `fft_inplace` computes it. -/
def add (a b : C32) : C32 := ⟨a.re + b.re, a.im + b.im⟩

/-- Their difference. -/
def sub (a b : C32) : C32 := ⟨a.re - b.re, a.im - b.im⟩

/-- `mul`. -/
def mul (a b : C32) : C32 := ⟨a.re * b.re - a.im * b.im, a.re * b.im + a.im * b.re⟩

/-- `conj`. -/
def conj (a : C32) : C32 := ⟨a.re, -a.im⟩

/-- `mag`. -/
def mag (a : C32) : Float32 := (a.re * a.re + a.im * a.im).sqrt

end C32

/-- The number of so many bits with the bits in reverse. -/
def reverseBits : ℕ → ℕ → ℕ
  | 0, _ => 0
  | bits + 1, i => i % 2 * 2 ^ bits + reverseBits bits (i / 2)

/-- The values of `w` in the loop over `k`: the powers of `wlen`, from one on. -/
def twiddles (wlen : C32) : ℕ → C32 → List C32
  | 0, _ => []
  | half + 1, w => w :: twiddles wlen half (w.mul wlen)

/-- The loop over `k`: the first half of a block, its second half, and the values of `w`. -/
def butterflies (us vs ws : List C32) : List C32 :=
  let vs := List.zipWith C32.mul vs ws
  List.zipWith C32.add us vs ++ List.zipWith C32.sub us vs

/-- The loop over `base`, for so many blocks. -/
def fftBlocks (half : ℕ) (ws : List C32) : ℕ → List C32 → List C32
  | 0, _ => []
  | blocks + 1, data =>
    butterflies (data.take half) ((data.drop half).take half) ws ++
      fftBlocks half ws blocks (data.drop (2 * half))

variable (cos sin : Float32 → Float32)

/-- The loop over `half`, which doubles from one up to the number of values, `2 ^ bits`. -/
def fftLoop (sign : Float32) : ℕ → ℕ → List C32 → List C32
  | 0, _, data => data
  | bits + 1, half, data =>
    let ang := sign * .ofBits 0x40490FDB / asF32 half
    let ws := twiddles ⟨cos ang, sin ang⟩ half ⟨1, 0⟩
    fftLoop sign bits (2 * half) (fftBlocks half ws (2 ^ bits) data)

/-- `fft_inplace`, of `2 ^ bits` values. -/
def fftInplace (bits : ℕ) (data : List C32) (inverse : Bool) : List C32 :=
  let swapped := (List.range (2 ^ bits)).map fun i => data.getD (reverseBits bits i) .zero
  let data := fftLoop cos sin (if inverse then 1 else -1) bits 1 swapped
  if inverse then
    let scale := 1 / asF32 (2 ^ bits)
    data.map fun x => ⟨x.re * scale, x.im * scale⟩
  else data

/-- The exponent at which the loop of `next_pow2` stops: the power of two is not below `n`. -/
def nextPow2Bits (n : ℕ) : ℕ := Nat.clog 2 n

/-! ## The search -/

/-- A bin of the normalised cross-power spectrum; `none` when it is degenerate. -/
def crossPower (a b : C32) : Option C32 :=
  let c := a.mul b.conj
  let m := c.mag
  if m > 1e-9 then some ⟨c.re / m, c.im / m⟩ else none

/-- The shifts that the loop of `correlate_1d` tries, in order. -/
def shifts (maxShift : ℤ) : List ℤ :=
  ((List.range (2 * maxShift + 1).toNat).map fun k : ℕ => (k : ℤ) - maxShift).filter (· ≠ 0)

/-- The loop of `correlate_1d` over the shifts, from `f32::NEG_INFINITY` on: only a higher value
replaces the best one so far. -/
def bestShift (val : ℤ → Float32) (ds : List ℤ) : ℤ × Float32 :=
  ds.foldl (fun best d => if val d > best.2 then (d, val d) else best) (0, .ofBits 0xFF800000)

/-- `correlate_1d`. The values of the transform are read below their number. -/
def correlate1d (prev curr : List Float32) (maxShift : ℤ) : Option (ℤ × Float32) :=
  let bits := nextPow2Bits (max (prev.length + maxShift.toNat) 2)
  let padded (l : List Float32) : List C32 :=
    (List.range (2 ^ bits)).map fun i => ⟨l.getD i 0, 0⟩
  let f1 := fftInplace cos sin bits (padded prev) false
  let f2 := fftInplace cos sin bits (padded curr) false
  let bins := List.zipWith crossPower f1 f2
  let active := bins.countP Option.isSome
  if active = 0 then none
  else
    let f1 := fftInplace cos sin bits (bins.map (·.getD .zero)) true
    let scale := asF32 (2 ^ bits) / asF32 active
    let val (d : ℤ) : Float32 := (f1.getD (d % 2 ^ bits).toNat .zero).re * scale
    let best := bestShift val (shifts maxShift)
    if best.2 < 0.30 then none else some best

/-- `project_cols`; `none` when an index is out of bounds. -/
def projectCols (data : List UInt8) (w h : ℕ) : Option (List Float32) :=
  (List.range h).mapM fun y => do
    let row ← (List.range w).mapM fun x => data[y * w + x]?
    pure (asF32 (asU32 (row.map UInt8.toNat).sum) / asF32 w)

/-- `project_rows`; `none` when an index is out of bounds. -/
def projectRows (data : List UInt8) (w h : ℕ) : Option (List Float32) :=
  (List.range w).mapM fun x => do
    let col ← (List.range h).mapM fun y => data[y * w + x]?
    pure (asF32 (asU32 (col.map UInt8.toNat).sum) / asF32 h)

/-- The shift along the axis with the higher peak. -/
def dominantPeak : Option (ℤ × Float32) → Option (ℤ × Float32) → Option (ℤ × ℤ)
  | some (du, cu), some (dv, cv) => if cu ≥ cv then some (du, 0) else some (0, dv)
  | some (du, _), none => some (du, 0)
  | none, some (dv, _) => some (0, dv)
  | none, none => none

/-- `phase_correlate`; the outer `none` when an index is out of bounds. -/
def phaseCorrelate (prev curr : List UInt8) (w h : ℕ) (maxShift : ℤ) :
    Option (Option (ℤ × ℤ)) := do
  let prevV ← projectCols prev w h
  let currV ← projectCols curr w h
  let prevH ← projectRows prev w h
  let currH ← projectRows curr w h
  let v := correlate1d cos sin prevV currV maxShift
  let u := correlate1d cos sin prevH currH maxShift
  pure (dominantPeak u v)

/-! ## What is found -/

/-- All shifts up to the largest one are tried, but for zero. -/
theorem mem_shifts {maxShift d : ℤ} : d ∈ shifts maxShift ↔ d ≠ 0 ∧ |d| ≤ maxShift := by
  unfold shifts
  simp only [List.mem_filter, List.mem_map, List.mem_range, decide_eq_true_eq, abs_le]
  constructor
  · rintro ⟨⟨k, hk, rfl⟩, hne⟩
    exact ⟨hne, by omega⟩
  · rintro ⟨hne, hle⟩
    exact ⟨⟨(d + maxShift).toNat, by omega, by omega⟩, hne⟩

/-- The search ends with a shift that it tried, or with nothing. -/
theorem bestShift_mem (val : ℤ → Float32) (ds : List ℤ) :
    (bestShift val ds).1 ∈ ds ∨ (bestShift val ds).2 = .ofBits 0xFF800000 := by
  unfold bestShift
  induction ds using List.reverseRecOn with
  | nil => exact .inr rfl
  | append_singleton ds d ih =>
    rw [List.foldl_append, List.foldl_cons, List.foldl_nil]
    split
    · exact .inl (List.mem_append_right _ List.mem_cons_self)
    · exact ih.imp_left (List.mem_append_left _)

/-- Nothing is below the threshold. -/
theorem negInfinity_lt : (.ofBits 0xFF800000 : Float32) < 0.30 := by decide +kernel

variable {cos sin}

/-- What `correlate_1d` finds is one of the shifts. -/
theorem mem_shifts_of_correlate1d {prev curr : List Float32} {maxShift d : ℤ} {peak : Float32}
    (h : correlate1d cos sin prev curr maxShift = some (d, peak)) : d ∈ shifts maxShift := by
  unfold correlate1d at h
  dsimp only at h
  split at h
  · cases h
  · split at h
    · cases h
    · next hpeak =>
      generalize hval : (fun d : ℤ => _) = val at h hpeak
      have hbest := Option.some.inj h
      rcases bestShift_mem val (shifts maxShift) with hmem | hnone
      · rwa [hbest] at hmem
      · rw [hnone] at hpeak
        exact absurd negInfinity_lt hpeak

/-- The dominant peak is one of the two, along its axis. -/
theorem dominantPeak_cases {u v : Option (ℤ × Float32)} {su sv : ℤ}
    (h : dominantPeak u v = some (su, sv)) :
    (∃ cu, u = some (su, cu)) ∧ sv = 0 ∨ su = 0 ∧ ∃ cv, v = some (sv, cv) := by
  rcases u with _ | ⟨du, cu⟩ <;> rcases v with _ | ⟨dv, cv⟩
  · cases h
  · cases h
    exact .inr ⟨rfl, cv, rfl⟩
  · cases h
    exact .inl ⟨⟨cu, rfl⟩, rfl⟩
  · unfold dominantPeak at h
    dsimp only at h
    split at h
    · cases h
      exact .inl ⟨⟨cu, rfl⟩, rfl⟩
    · cases h
      exact .inr ⟨rfl, cv, rfl⟩

/-- What `phase_correlate` finds is one of the shifts, along one axis. -/
theorem phaseCorrelate_spec {prev curr : List UInt8} {w h : ℕ} {maxShift su sv : ℤ}
    (hfound : phaseCorrelate cos sin prev curr w h maxShift = some (some (su, sv))) :
    su ∈ shifts maxShift ∧ sv = 0 ∨ su = 0 ∧ sv ∈ shifts maxShift := by
  obtain ⟨prevV, -, hfound⟩ := Option.bind_eq_some_iff.mp hfound
  obtain ⟨currV, -, hfound⟩ := Option.bind_eq_some_iff.mp hfound
  obtain ⟨prevH, -, hfound⟩ := Option.bind_eq_some_iff.mp hfound
  obtain ⟨currH, -, hfound⟩ := Option.bind_eq_some_iff.mp hfound
  rcases dominantPeak_cases (Option.some.inj hfound) with ⟨⟨cu, hu⟩, hsv⟩ | ⟨hsu, cv, hv⟩
  · exact .inl ⟨mem_shifts_of_correlate1d hu, hsv⟩
  · exact .inr ⟨hsu, mem_shifts_of_correlate1d hv⟩

/-- The averages of a patch with all its bytes are there. -/
theorem projections_total {data : List UInt8} {w h : ℕ} (hlen : data.length = w * h) :
    (∃ rows, projectCols data w h = some rows) ∧ ∃ cols, projectRows data w h = some cols := by
  have hbyte : ∀ x < w, ∀ y < h, ∃ b, data[y * w + x]? = some b := by
    intro x hx y hy
    have hrow : (y + 1) * w ≤ h * w := Nat.mul_le_mul_right w hy
    rw [Nat.succ_mul, Nat.mul_comm h w] at hrow
    exact ⟨_, List.getElem?_eq_getElem (by omega)⟩
  constructor <;> refine mapM_total fun k hk => ?_ <;> rw [List.mem_range] at hk
  · obtain ⟨row, hrow⟩ := mapM_total fun x hx => hbyte x (List.mem_range.mp hx) k hk
    rw [hrow]
    exact ⟨_, rfl⟩
  · obtain ⟨col, hcol⟩ := mapM_total fun y hy => hbyte k hk y (List.mem_range.mp hy)
    rw [hcol]
    exact ⟨_, rfl⟩

variable (cos sin) in
/-- Phase correlation of two patches with all their bytes reads no byte out of bounds. -/
theorem phaseCorrelate_total {prev curr : List UInt8} {w h : ℕ} (maxShift : ℤ)
    (hprev : prev.length = w * h) (hcurr : curr.length = w * h) :
    ∃ r, phaseCorrelate cos sin prev curr w h maxShift = some r := by
  obtain ⟨⟨prevV, hpv⟩, prevH, hph⟩ := projections_total hprev
  obtain ⟨⟨currV, hcv⟩, currH, hch⟩ := projections_total hcurr
  unfold phaseCorrelate
  rw [hpv, hcv, hph, hch]
  exact ⟨_, rfl⟩

end LowBand.Platform
