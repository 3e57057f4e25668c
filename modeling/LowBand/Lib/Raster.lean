import LowBand.Lib.FileBytes
import Mathlib.Data.List.TakeWhile

/-!
# Rasters of pixels

A raster is a byte string of pixels of four bytes. `copySlice` copies a slice, and fails when one is
out of bounds; `copyRect` does it for a rectangle, row by row, with the offsets of the two rasters
as functions. `copyRect_spec` says what a rectangle becomes whose copies each copy the wanted pixel
(`CopiesPixel`).
-/

namespace Lib

/-- `dst[d..d + n].copy_from_slice(&src[s..s + n])`; `none` when a slice is out of bounds. -/
def copySlice (n : ℕ) (dst : List UInt8) (d : ℕ) (src : List UInt8) (s : ℕ) :
    Option (List UInt8) :=
  if d + n ≤ dst.length ∧ s + n ≤ src.length then some (writeAt dst d ((src.drop s).take n))
  else none

/-- Only the slice is read. -/
theorem copySlice_append {n s : ℕ} {src : List UInt8} (h : s + n ≤ src.length) (dst : List UInt8)
    (d : ℕ) (rest : List UInt8) : copySlice n dst d (src ++ rest) s = copySlice n dst d src s := by
  have hlen : s + n ≤ (src ++ rest).length := by
    rw [List.length_append]
    omega
  unfold copySlice
  rw [List.drop_append_of_le_length (by omega),
    List.take_append_of_le_length (by rw [List.length_drop]; omega)]
  simp only [h, hlen, and_true]

/-- The pixels of a rectangle are copied, row by row. -/
def copyRect (rows cols : List ℕ) (dstOff srcOff : ℕ → ℕ → ℕ) (dst src : List UInt8) :
    Option (List UInt8) :=
  rows.foldlM (fun dst r =>
    cols.foldlM (fun dst c => copySlice 4 dst (dstOff r c) src (srcOff r c)) dst) dst

/-- The numbers that a loop over `0..n` takes when it breaks at the first without the property. -/
theorem mem_takeWhile_range {p : ℕ → Bool} {n x : ℕ} :
    x ∈ (List.range n).takeWhile p ↔ x < n ∧ ∀ y ≤ x, p y := by
  -- The range is cut from its front, so the induction is on ranges that start anywhere.
  have hfrom : ∀ a, x ∈ (List.range' a n).takeWhile p ↔
      a ≤ x ∧ x < a + n ∧ ∀ y, a ≤ y → y ≤ x → p y := by
    induction n with
    | zero =>
      intro a
      simp only [List.range'_zero, List.takeWhile_nil, List.not_mem_nil, false_iff]
      omega
    | succ n ih =>
      intro a
      rw [List.range'_succ, List.takeWhile_cons]
      split
      · next hp =>
        rw [List.mem_cons, ih]
        constructor
        · rintro (rfl | ⟨hle, hlt, hall⟩)
          · refine ⟨le_rfl, by omega, fun y hy hy' => ?_⟩
            rwa [le_antisymm hy' hy]
          · refine ⟨by omega, by omega, fun y hy hy' => ?_⟩
            rcases eq_or_lt_of_le hy with rfl | hy
            · exact hp
            · exact hall y hy hy'
        · rintro ⟨hle, hlt, hall⟩
          rcases eq_or_lt_of_le hle with rfl | hle
          · exact .inl rfl
          · exact .inr ⟨hle, by omega, fun y hy hy' => hall y (by omega) hy'⟩
      · next hp =>
        simp only [List.not_mem_nil, false_iff]
        rintro ⟨hle, -, hall⟩
        exact hp (hall a le_rfl hle)
  rw [List.range_eq_range', hfrom]
  simp

/-- A copy keeps the size. -/
theorem length_of_copyRect {rows cols : List ℕ} {dstOff srcOff : ℕ → ℕ → ℕ}
    {dst src out : List UInt8} (h : copyRect rows cols dstOff srcOff dst src = some out) :
    out.length = dst.length := by
  -- Both loops keep what their steps keep.
  have hfold : ∀ {f : List UInt8 → ℕ → Option (List UInt8)},
      (∀ dst a out, f dst a = some out → out.length = dst.length) →
      ∀ {as : List ℕ} {dst out : List UInt8}, as.foldlM f dst = some out →
        out.length = dst.length := by
    intro f hf as
    induction as with
    | nil =>
      intro dst out h
      rw [← Option.some.inj h]
    | cons a as ih =>
      intro dst out h
      rw [List.foldlM_cons, Option.bind_eq_bind, Option.bind_eq_some_iff] at h
      obtain ⟨mid, hmid, h⟩ := h
      rw [ih h, hf _ _ _ hmid]
  refine hfold (fun dst r out h => hfold (fun dst c out h => ?_) h) h
  unfold copySlice at h
  split at h
  · next hfits =>
    rw [← Option.some.inj h]
    apply length_writeAt
    rw [List.length_take, List.length_drop]
    omega
  · simp at h

/-- A pixel of a raster of `w` by `h` lies in it. -/
theorem pixel_le {w h x y : ℕ} (hx : x < w) (hy : y < h) : (y * w + x + 1) * 4 ≤ w * h * 4 := by
  have hrow : (y + 1) * w ≤ h * w := Nat.mul_le_mul_right w hy
  rw [Nat.succ_mul, Nat.mul_comm h w] at hrow
  omega

/-- The column of a place. -/
theorem pixel_mod {w x y : ℕ} (hx : x < w) : (y * w + x) % w = x := by
  rw [Nat.mul_add_mod_of_lt hx]

/-- The place of a pixel gives its column and row. -/
theorem pixel_inj {w x y x' y' : ℕ} (hx : x < w) (hx' : x' < w) (h : y * w + x = y' * w + x') :
    x = x' ∧ y = y' := by
  obtain rfl := piece_inj hx hx' h
  exact ⟨Nat.add_left_cancel h, rfl⟩

section

variable {src : List UInt8} {want : ℕ → List UInt8}

/-- The raster `out` is `dst` with the wanted pixels at some places. -/
structure Filled (want : ℕ → List UInt8) (places : ℕ → Prop) (dst out : List UInt8) : Prop where
  /-- The size stays. -/
  length_eq : out.length = dst.length
  /-- The wanted pixels are there. -/
  filled : ∀ j, places j → chunk 4 j out = want j
  /-- The other pixels stay. -/
  kept : ∀ j, ¬ places j → chunk 4 j out = chunk 4 j dst

/-- Places filled one after the other are filled. -/
theorem Filled.trans {P Q : ℕ → Prop} {a b c : List UInt8} (h : Filled want P a b)
    (h' : Filled want Q b c) : Filled want (fun j => P j ∨ Q j) a c where
  length_eq := h'.length_eq.trans h.length_eq
  filled := by
    intro j hj
    by_cases hq : Q j
    · exact h'.filled j hq
    · rw [h'.kept j hq]
      exact h.filled j (hj.resolve_right hq)
  kept := by
    intro j hj
    rw [not_or] at hj
    rw [h'.kept j hj.2, h.kept j hj.1]

/-- Nothing is filled. -/
theorem Filled.refl (a : List UInt8) : Filled want (fun _ => False) a a :=
  ⟨rfl, fun _ h => h.elim, fun _ _ => rfl⟩

/-- The places that are filled may be described otherwise. -/
theorem Filled.congr {P Q : ℕ → Prop} {a b : List UInt8} (h : Filled want P a b)
    (hpq : ∀ j, P j ↔ Q j) : Filled want Q a b :=
  ⟨h.length_eq, fun j hj => h.filled j ((hpq j).mpr hj),
    fun j hj => h.kept j fun hp => hj ((hpq j).mp hp)⟩

/-- A loop whose steps each fill some places fills all of them. -/
theorem Filled.foldlM {α : Type*} {f : List UInt8 → α → Option (List UInt8)}
    {places : α → ℕ → Prop} {N : ℕ} {as : List α}
    (hf : ∀ a ∈ as, ∀ dst : List UInt8, dst.length = N →
      ∃ out, f dst a = some out ∧ Filled want (places a) dst out)
    {dst : List UInt8} (hdst : dst.length = N) :
    ∃ out, as.foldlM f dst = some out ∧ Filled want (fun j => ∃ a ∈ as, places a j) dst out := by
  -- By induction on the steps: the places of the first and of the others are filled in turn.
  induction as generalizing dst with
  | nil => exact ⟨dst, rfl, (Filled.refl dst).congr (by simp)⟩
  | cons a as ih =>
    obtain ⟨ha, has⟩ := List.forall_mem_cons.mp hf
    obtain ⟨mid, hmid, hfill⟩ := ha dst hdst
    obtain ⟨out, hout, hrest⟩ := ih has (hfill.length_eq.trans hdst)
    refine ⟨out, by rw [List.foldlM_cons, hmid]; exact hout, (hfill.trans hrest).congr ?_⟩
    simp

/-- A copy from one offset to another copies the pixel `j` of the source, the wanted one, to the
place `i`. -/
structure CopiesPixel (want : ℕ → List UInt8) (dst src : List UInt8) (dstOff srcOff i j : ℕ) :
    Prop where
  /-- The offset of the place. -/
  dst_eq : dstOff = i * 4
  /-- The offset of the pixel. -/
  src_eq : srcOff = j * 4
  /-- The place lies in the raster. -/
  dst_le : (i + 1) * 4 ≤ dst.length
  /-- The pixel lies in the source. -/
  src_le : (j + 1) * 4 ≤ src.length
  /-- The pixel is the wanted one. -/
  want_eq : chunk 4 j src = want i

variable (want) in
/-- A rectangle is filled with the wanted pixels when each copy brings the four bytes of the wanted
one to its place, from wherever they lie in the source. -/
theorem copyRect_fills (di : ℕ → ℕ → ℕ) {rows cols : List ℕ} {dstOff srcOff : ℕ → ℕ → ℕ}
    {dst src : List UInt8}
    (hdst : ∀ r ∈ rows, ∀ c ∈ cols, dstOff r c = di r c * 4 ∧ (di r c + 1) * 4 ≤ dst.length)
    (hsrc : ∀ r ∈ rows, ∀ c ∈ cols, srcOff r c + 4 ≤ src.length ∧
      (src.drop (srcOff r c)).take 4 = want (di r c)) :
    ∃ out, copyRect rows cols dstOff srcOff dst src = some out ∧
      Filled want (fun j => ∃ r ∈ rows, ∃ c ∈ cols, di r c = j) dst out := by
  -- The two loops keep the length, and each step fills one pixel.
  apply Filled.foldlM _ (rfl : dst.length = dst.length)
  intro r hr mid hmid
  apply Filled.foldlM _ hmid
  intro c hc mid hmid
  obtain ⟨hoff, hfits⟩ := hdst r hr c hc
  obtain ⟨hin, hwant⟩ := hsrc r hr c hc
  rw [← hmid] at hfits
  -- Both slices are in bounds, so this step copies one pixel.
  have hcopy : copySlice 4 mid (di r c * 4) src (srcOff r c) =
      some (writeAt mid (di r c * 4) (want (di r c))) := by
    unfold copySlice
    rw [if_pos ⟨by omega, hin⟩, hwant]
  have hpixel : (want (di r c)).length = 4 := by
    rw [← hwant, List.length_take, List.length_drop]
    omega
  refine ⟨_, by rw [hoff]; exact hcopy, length_writeAt (by rw [hpixel]; omega), ?_, ?_⟩
  · rintro j rfl
    rw [chunk_writeAt_of_length hpixel hfits, if_pos rfl]
  · intro j hj
    rw [chunk_writeAt_of_length hpixel hfits, if_neg (Ne.symm hj)]

/-- A rectangle whose copies each copy the wanted pixel is filled with the wanted pixels. -/
theorem copyRect_spec (di si : ℕ → ℕ → ℕ) {rows cols : List ℕ} {dstOff srcOff : ℕ → ℕ → ℕ}
    {dst src : List UInt8}
    (hcopies : ∀ r ∈ rows, ∀ c ∈ cols,
      CopiesPixel want dst src (dstOff r c) (srcOff r c) (di r c) (si r c)) :
    ∃ out, copyRect rows cols dstOff srcOff dst src = some out ∧
      Filled want (fun j => ∃ r ∈ rows, ∃ c ∈ cols, di r c = j) dst out := by
  apply copyRect_fills want di
  · intro r hr c hc
    exact ⟨(hcopies r hr c hc).dst_eq, (hcopies r hr c hc).dst_le⟩
  · intro r hr c hc
    obtain ⟨-, hsrc, -, hin, hwant⟩ := hcopies r hr c hc
    rw [hsrc]
    exact ⟨by omega, hwant⟩

end

end Lib
