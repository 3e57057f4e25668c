import LowBand.Platform.PaletteTile

/-!
# The classes of tiles

`classify_tile` of `screen_encoder.rs` counts the colours of a tile by a fingerprint of 12 bits, the
upper four of each channel, and marks those it has seen in a set of 4096 bits. `Marks` says which
numbers the words of the set hold, and `classifyTile_eq` that the class depends on the number of
fingerprints alone.

The palette coder counts the colours themselves. A tile whose colours differ only in the lower bits
has more colours than fingerprints, and `classify_lossless_iff` says for which tiles the class keeps
what it promises.
-/

namespace LowBand.Platform

open Lib

/-- `VIDEO_COLOR_LIMIT`. -/
def videoColorLimit : ℕ := 256

/-- `TEXT_COLOR_LIMIT`. -/
def textColorLimit : ℕ := 4

/-- `TileClass`. -/
inductive TileClass where
  /-- At most 4 colours. -/
  | text
  /-- At most 16 colours. -/
  | flat
  /-- At most 256 colours. -/
  | picture
  /-- More colours. -/
  | video
deriving DecidableEq

/-- `coarse_is_lossless`. -/
def TileClass.coarseIsLossless : TileClass → Bool
  | .text | .flat => true
  | .picture | .video => false

/-- The fingerprint of a colour: the upper four bits of red, green and blue. -/
def Bgr.fingerprint (c : Bgr) : ℕ :=
  (c.r >>> 4).toNat <<< 8 ||| (c.g >>> 4).toNat <<< 4 ||| (c.b >>> 4).toNat

/-- The class for a number of colours that is not beyond the limit of video. -/
def classOfCount (count : ℕ) : TileClass :=
  if count ≤ textColorLimit then .text
  else if count ≤ paletteColorLimit then .flat
  else .picture

/-- The loop of `classify_tile` over the colours that are left, with the set of the fingerprints
seen and their number. -/
def classifyLoop (seen : List UInt64) (count : ℕ) : List Bgr → TileClass
  | [] => classOfCount count
  | c :: cs =>
    let idx := c.fingerprint
    let word := idx >>> 6
    let bit : UInt64 := 1 <<< UInt64.ofNat (idx &&& 63)
    if seen.getD word 0 &&& bit = 0 then
      if count + 1 > videoColorLimit then .video
      else classifyLoop (seen.set word (seen.getD word 0 ||| bit)) (count + 1) cs
    else classifyLoop seen count cs

/-- `classify_tile`. -/
def classifyTile (pixels : List UInt8) : TileClass :=
  classifyLoop (List.replicate 64 0) 0 (colors pixels)

/-! ## The set of fingerprints -/

/-- A number is marked in the words of a set. -/
def Marked (seen : List UInt64) (idx : ℕ) : Prop :=
  (seen.getD (idx / 64) 0).toNat.testBit (idx % 64)

/-- The words hold just these numbers. -/
structure Marks (seen : List UInt64) (S : Finset ℕ) : Prop where
  /-- There are 64 words. -/
  length_eq : seen.length = 64
  /-- A number is marked when it is in the set. -/
  marked_iff : ∀ idx, Marked seen idx ↔ idx ∈ S

/-- A fingerprint has 12 bits. -/
theorem fingerprint_lt (c : Bgr) : c.fingerprint < 4096 := by
  have hhigh : ∀ x : UInt8, (x >>> 4).toNat < 2 ^ 4 := by
    intro x
    have hx := x.toNat_lt
    rw [UInt8.toNat_shiftRight, show (4 : UInt8).toNat % 8 = 4 by decide,
      Nat.shiftRight_eq_div_pow]
    omega
  have hr : (c.r >>> 4).toNat <<< 8 < 2 ^ 12 := by
    have := hhigh c.r
    rw [Nat.shiftLeft_eq]
    omega
  have hg : (c.g >>> 4).toNat <<< 4 < 2 ^ 12 := by
    have := hhigh c.g
    rw [Nat.shiftLeft_eq]
    omega
  have hb : (c.b >>> 4).toNat < 2 ^ 12 := (hhigh c.b).trans (by decide)
  exact Nat.or_lt_two_pow (Nat.or_lt_two_pow hr hg) hb

/-- The word and the bit of a number. -/
theorem word_bit (idx : ℕ) : idx >>> 6 = idx / 64 ∧
    ((1 : UInt64) <<< UInt64.ofNat (idx &&& 63)).toNat = 2 ^ (idx % 64) := by
  have hbit : ∀ k < 64, ((1 : UInt64) <<< UInt64.ofNat k).toNat = 2 ^ k := by decide
  refine ⟨Nat.shiftRight_eq_div_pow idx 6, ?_⟩
  rw [show 63 = 2 ^ 6 - 1 by decide, Nat.and_two_pow_sub_one_eq_mod]
  exact hbit _ (Nat.mod_lt _ (by decide))

/-- The test of the loop: the number is not marked. -/
theorem and_eq_zero_iff (w bit : UInt64) {k : ℕ} (hbit : bit.toNat = 2 ^ k) :
    w &&& bit = 0 ↔ ¬ w.toNat.testBit k := by
  rw [← UInt64.toNat_inj, UInt64.toNat_and, hbit, Nat.and_two_pow, UInt64.toNat_zero]
  cases w.toNat.testBit k <;> simp

/-- A number is marked, and no other one. -/
theorem Marks.set {seen : List UInt64} {S : Finset ℕ} (h : Marks seen S) {idx : ℕ}
    (hidx : idx < 4096) {bit : UInt64} (hbit : bit.toNat = 2 ^ (idx % 64)) :
    Marks (seen.set (idx / 64) (seen.getD (idx / 64) 0 ||| bit)) (insert idx S) := by
  have hword : idx / 64 < seen.length := by
    rw [h.length_eq]
    omega
  refine ⟨by rw [List.length_set, h.length_eq], fun j => ?_⟩
  rw [Finset.mem_insert, ← h.marked_iff j, Marked, Marked]
  by_cases hj : j / 64 = idx / 64
  · -- In the word of the number, just its bit is new.
    rw [hj, List.getD_eq_getElem?_getD, List.getElem?_set_self hword, Option.getD_some,
      UInt64.toNat_or, hbit, Nat.testBit_or, Nat.testBit_two_pow]
    have hsplit : j = idx ↔ idx % 64 = j % 64 := by omega
    simp [hsplit, or_comm]
  · -- The other words stay.
    have hne : j ≠ idx := fun heq => hj (by rw [heq])
    rw [List.getD_eq_getElem?_getD, List.getElem?_set_ne (Ne.symm hj),
      ← List.getD_eq_getElem?_getD]
    simp [hne]

/-- The class for a number of fingerprints. -/
def classOf (count : ℕ) : TileClass :=
  if count > videoColorLimit then .video else classOfCount count

/-- The loop, from any point: the class is that of the number of all fingerprints. -/
theorem classifyLoop_eq {seen : List UInt64} {S : Finset ℕ} (h : Marks seen S)
    (hcard : S.card ≤ videoColorLimit) (cs : List Bgr) :
    classifyLoop seen S.card cs = classOf (S ∪ (cs.map Bgr.fingerprint).toFinset).card := by
  induction cs generalizing seen S with
  | nil =>
    rw [List.map_nil, List.toFinset_nil, Finset.union_empty, classOf, if_neg (by omega)]
    rfl
  | cons c cs ih =>
    obtain ⟨hword, hbit⟩ := word_bit c.fingerprint
    have hall : S ∪ ((c :: cs).map Bgr.fingerprint).toFinset =
        insert c.fingerprint S ∪ (cs.map Bgr.fingerprint).toFinset := by
      rw [List.map_cons, List.toFinset_cons, Finset.union_insert, Finset.insert_union]
    have hmarked : seen.getD (c.fingerprint / 64) 0 &&& 1 <<< UInt64.ofNat (c.fingerprint &&& 63)
        = 0 ↔ c.fingerprint ∉ S := by
      rw [and_eq_zero_iff _ _ hbit, ← h.marked_iff]
      rfl
    rw [hall, classifyLoop, hword]
    split
    · next hfresh =>
      -- A new fingerprint: one more, which may be one too many.
      have hone : (insert c.fingerprint S).card = S.card + 1 :=
        Finset.card_insert_of_notMem (hmarked.mp hfresh)
      split
      · next hmany =>
        have hsub : insert c.fingerprint S ⊆
            insert c.fingerprint S ∪ (cs.map Bgr.fingerprint).toFinset := Finset.subset_union_left
        have hle := Finset.card_le_card hsub
        rw [classOf, if_pos (by omega)]
      · next hroom =>
        rw [← hone]
        exact ih (h.set (fingerprint_lt c) hbit) (by omega)
    · next hseen =>
      rw [Finset.insert_eq_self.mpr (by_contra fun hnot => hseen (hmarked.mpr hnot))]
      exact ih h hcard

/-- The fingerprints of a tile. -/
def fingerprints (pixels : List UInt8) : Finset ℕ :=
  ((colors pixels).map Bgr.fingerprint).toFinset

/-- There are at most as many as colours. -/
theorem card_fingerprints_le (pixels : List UInt8) :
    (fingerprints pixels).card ≤ (colors pixels).toFinset.card := by
  have hsub : fingerprints pixels ⊆ (colors pixels).toFinset.image Bgr.fingerprint := by
    intro x hx
    simpa [fingerprints] using hx
  calc (fingerprints pixels).card ≤ ((colors pixels).toFinset.image Bgr.fingerprint).card :=
        Finset.card_le_card hsub
    _ ≤ (colors pixels).toFinset.card := Finset.card_image_le

/-- The class of a tile is that of the number of its fingerprints. -/
theorem classifyTile_eq (pixels : List UInt8) :
    classifyTile pixels = classOf (fingerprints pixels).card := by
  have hempty : Marks (List.replicate 64 0) ∅ := by
    refine ⟨List.length_replicate, fun idx => ?_⟩
    have hzero : (List.replicate 64 (0 : UInt64)).getD (idx / 64) 0 = 0 := by
      rw [List.getD_eq_getElem?_getD, List.getElem?_replicate]
      split <;> rfl
    rw [Marked, hzero, UInt64.toNat_zero, Nat.zero_testBit]
    simp only [Bool.false_eq_true, Finset.notMem_empty]
  have hloop := classifyLoop_eq hempty (by decide) (colors pixels)
  rwa [Finset.empty_union] at hloop

/-! ## What the class promises -/

/-- The class says that the coarse pass is lossless exactly for tiles of at most 16
fingerprints. -/
theorem coarseIsLossless_iff (pixels : List UInt8) :
    (classifyTile pixels).coarseIsLossless = true ↔
      (fingerprints pixels).card ≤ paletteColorLimit := by
  rw [classifyTile_eq]
  unfold classOf classOfCount videoColorLimit textColorLimit paletteColorLimit
  split_ifs <;> simp [TileClass.coarseIsLossless] <;> omega

/-- What a lossless class promises: the palette coder takes the tile, and its decoder gives back the
colours. -/
def ComesBack (pixels : List UInt8) : Prop :=
  ∃ data, paletteEncode pixels = .ok data ∧
    ∃ out, paletteDecode data = .ok out ∧ colors out = colors pixels

/-- The palette coder gives back exactly the tiles of at most 16 colours. -/
theorem comesBack_iff {pixels : List UInt8} (hlen : pixels.length = tileBytes) :
    ComesBack pixels ↔ (colors pixels).toFinset.card ≤ paletteColorLimit := by
  constructor
  · rintro ⟨data, henc, -⟩
    exact (exists_paletteEncode_iff hlen).mp ⟨data, henc⟩
  · intro hcard
    obtain ⟨data, henc, -, hdec⟩ := paletteDecode_paletteEncode hlen hcard
    exact ⟨data, henc, _, hdec, colors_flatMap_pixel _⟩

/-- A tile whose class says that the coarse pass is lossless comes back from the palette coder
exactly when the tile has at most 16 colours, or has more than 16 fingerprints, so that its class
does not say so. -/
theorem classify_lossless_iff (pixels : List UInt8) (hlen : pixels.length = tileBytes) :
    ((classifyTile pixels).coarseIsLossless = true → ComesBack pixels) ↔
      (colors pixels).toFinset.card ≤ paletteColorLimit ∨
        paletteColorLimit < (fingerprints pixels).card := by
  rw [coarseIsLossless_iff, comesBack_iff hlen]
  omega

/-- A tile of nine shades of grey, which have nine fingerprints, is of a class that says the coarse
pass is lossless, and comes back. -/
theorem classify_lossless_grey :
    greyTile.length = tileBytes ∧ (classifyTile greyTile).coarseIsLossless = true ∧
      ComesBack greyTile := by
  have hclass : (classifyTile greyTile).coarseIsLossless = true := by
    rw [coarseIsLossless_iff]
    exact (card_fingerprints_le greyTile).trans card_colors_greyTile
  exact ⟨length_greyTile, hclass,
    (classify_lossless_iff greyTile length_greyTile).mpr (.inl card_colors_greyTile) hclass⟩

/-- A colour that is nearly black, with one of 256 shades of it. -/
def nearBlack (i : ℕ) : Bgr := ⟨UInt8.ofNat (i % 16), UInt8.ofNat (i / 16 % 16), 0⟩

/-- A tile that shows all of these shades. -/
def nearBlackTile : List UInt8 := ((List.range (tileBytes / 4)).map nearBlack).flatMap Bgr.pixel

/-- It has as many bytes as a tile. -/
theorem length_nearBlackTile : nearBlackTile.length = tileBytes := by
  rw [nearBlackTile, length_flatMap_of_length Bgr.length_pixel, List.length_map, List.length_range]
  rfl

/-- All shades have one fingerprint. -/
theorem fingerprint_nearBlack (i : ℕ) : (nearBlack i).fingerprint = 0 := by
  have hall : ∀ j < 16, (UInt8.ofNat j >>> 4).toNat = 0 := by decide
  rw [Bgr.fingerprint, nearBlack]
  dsimp only
  rw [hall _ (Nat.mod_lt _ (by decide)), hall _ (Nat.mod_lt _ (by decide))]
  rfl

/-- The colours of the tile. -/
theorem colors_nearBlackTile : colors nearBlackTile = (List.range (tileBytes / 4)).map nearBlack :=
  colors_flatMap_pixel _

/-- A tile has more than 16 colours when some of its pixels do. -/
theorem lt_card_colors {color : ℕ → Bgr} {n : ℕ} {places : List ℕ} (hplaces : ∀ i ∈ places, i < n)
    (hcard : paletteColorLimit < (places.map color).toFinset.card) :
    paletteColorLimit < (colors (((List.range n).map color).flatMap Bgr.pixel)).toFinset.card := by
  rw [colors_flatMap_pixel]
  refine hcard.trans_le (Finset.card_le_card ?_)
  intro c hc
  simp only [List.mem_toFinset, List.mem_map, List.mem_range] at hc ⊢
  obtain ⟨i, hi, rfl⟩ := hc
  exact ⟨i, hplaces i hi, rfl⟩

/-- The tile has more than 16 colours: the first 17 shades are different. -/
theorem card_colors_nearBlackTile :
    paletteColorLimit < (colors nearBlackTile).toFinset.card := by
  have hplaces : ∀ i ∈ List.range 17, i < tileBytes / 4 :=
    fun i hi => (List.mem_range.mp hi).trans (by decide)
  exact lt_card_colors hplaces (by decide)

/-- The tile is of the class of text, and the palette coder refuses it. -/
theorem classify_nearBlack :
    nearBlackTile.length = tileBytes ∧ (classifyTile nearBlackTile).coarseIsLossless = true ∧
      ¬ ComesBack nearBlackTile := by
  refine ⟨length_nearBlackTile, ?_, ?_⟩
  · rw [coarseIsLossless_iff, fingerprints, colors_nearBlackTile]
    have hsub : (((List.range (tileBytes / 4)).map nearBlack).map Bgr.fingerprint).toFinset ⊆
        {0} := by
      intro x hx
      simp only [List.map_map, List.mem_toFinset, List.mem_map, Function.comp_apply,
        fingerprint_nearBlack] at hx
      obtain ⟨i, -, rfl⟩ := hx
      exact Finset.mem_singleton_self 0
    exact (Finset.card_le_card hsub).trans (by decide)
  · rw [comesBack_iff length_nearBlackTile]
    exact Nat.not_le.mpr card_colors_nearBlackTile

end LowBand.Platform
