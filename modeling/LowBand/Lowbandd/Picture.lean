import LowBand.Lib.Saturate
import LowBand.Lib.SinglePrecision
import LowBand.Lowbandd.ScreenTransfer
import LowBand.Platform.TileClass
import Mathlib.Data.List.Flatten

/-!
# The lossy picture codec

`picture.rs` codes the tiles that the palette coder refuses: for each channel and each of the 16
blocks of a tile, the coefficients of a cosine transform are quantised, put in zig-zag order and
written as a list of those that are not zero. What is said here holds for every transform, `Dct`:
quantised coefficients from the samples of a block, and samples from coefficients. The transform of
the source is `floatDct`, in the arithmetic of `f32`; the cosine, which the standard library leaves
to the platform, is its parameter.

A block reads back from its list, whatever follows it (`decodeBlock_encodeBlock`), and so does a
tile (`exists_decodeTile`). A coefficient takes three bytes and a block one byte more
(`length_encodeTile`), so a tile with many coefficients is longer than the tile itself. The sender
puts it in a frame all the same, where the receiver takes no more than a tile has bytes: a tile is
accepted if and only if the palette coder takes it or its coefficients are few, `accepted_iff`. With
the transform of the source there is a tile of black and 16 bright pixels that is not accepted,
`corner_tile_refused`.
-/

namespace LowBand.Lowbandd

open Lib Platform

/-! ## Blocks -/

/-- The 64 coefficients of a block. -/
structure Quant where
  /-- The coefficients. -/
  coeffs : List Int16
  /-- There are 64. -/
  length_eq : coeffs.length = 64
deriving DecidableEq

namespace Quant

/-- A block is its coefficients. -/
theorem ext_coeffs {p q : Quant} (h : p.coeffs = q.coeffs) : p = q := by
  cases p
  cases q
  cases h
  rfl

/-- A block of zeros. -/
def zero : Quant := ⟨List.replicate 64 0, List.length_replicate⟩

/-- A coefficient is set. -/
def set (q : Quant) (i : ℕ) (v : Int16) : Quant := ⟨q.coeffs.set i v, by simp [q.length_eq]⟩

/-- The coefficients that are not zero, with their places. -/
def nonzero (q : Quant) : List (Int16 × ℕ) := q.coeffs.zipIdx.filter (·.1 ≠ 0)

end Quant

/-- The bytes of a coefficient with its place. -/
def encodeCoeff (x : Int16 × ℕ) : List UInt8 :=
  UInt8.ofNat x.2 :: leBytes 2 x.1.toUInt16.toNat

/-- `encode_block`. -/
def encodeBlock (quant : Quant) : List UInt8 :=
  UInt8.ofNat quant.nonzero.length :: quant.nonzero.flatMap encodeCoeff

/-- The coefficients of a block are read: how many there are, the bytes, and the block so far. -/
def decodeCoeffs : ℕ → List UInt8 → Quant → Option (Quant × List UInt8)
  | 0, cur, quant => some (quant, cur)
  | count + 1, idx :: lo :: hi :: rest, quant =>
    decodeCoeffs count rest
      (if idx.toNat < 64 then quant.set idx.toNat (.ofUInt16 (.ofNat (ofLE [lo, hi]))) else quant)
  | _ + 1, _, _ => none

/-- `decode_block`: the block and the bytes after it. -/
def decodeBlock : List UInt8 → Option (Quant × List UInt8)
  | [] => none
  | count :: rest => decodeCoeffs count.toNat rest .zero

/-- The list of a block has at most 64 entries. -/
theorem Quant.length_nonzero_le (q : Quant) : q.nonzero.length ≤ 64 := by
  calc q.nonzero.length ≤ q.coeffs.zipIdx.length := List.length_filter_le _ _
    _ = 64 := by rw [List.length_zipIdx, q.length_eq]

/-- As many entries as coefficients that are not zero. -/
theorem Quant.length_nonzero (q : Quant) : q.nonzero.length = q.coeffs.countP (· ≠ 0) := by
  calc q.nonzero.length = q.coeffs.zipIdx.countP ((· ≠ 0) ∘ Prod.fst) :=
        List.countP_eq_length_filter.symm
    _ = (q.coeffs.zipIdx.map Prod.fst).countP (· ≠ 0) := List.countP_map.symm
    _ = q.coeffs.countP (· ≠ 0) := by rw [List.zipIdx_map_fst]

/-- Each place is below 64. -/
theorem Quant.place_lt {q : Quant} {x : Int16 × ℕ} (hx : x ∈ q.nonzero) : x.2 < 64 := by
  have hmem := (List.mem_filter.mp hx).1
  have := List.snd_lt_of_mem_zipIdx hmem
  rw [q.length_eq] at this
  omega

/-- Coefficients set at their places in a row, after some that are there already. -/
theorem foldl_set_nonzero (pre l : List Int16) :
    ((l.zipIdx pre.length).filter (·.1 ≠ 0)).foldl (fun acc x => acc.set x.2 x.1)
      (pre ++ List.replicate l.length 0) = pre ++ l := by
  -- By induction on the coefficients: a zero is there already.
  induction l generalizing pre with
  | nil => rfl
  | cons v l ih =>
    have hih := ih (pre ++ [v])
    rw [List.length_append, List.length_singleton, List.append_assoc, List.append_assoc] at hih
    rw [List.zipIdx_cons, List.length_cons, List.replicate_succ]
    by_cases hv : v = 0
    · rw [List.filter_cons_of_neg (by simp [hv])]
      rw [hv] at hih ⊢
      exact hih
    · rw [List.filter_cons_of_pos (by simp [hv]), List.foldl_cons]
      have hset : (pre ++ 0 :: List.replicate l.length 0).set pre.length v =
          pre ++ v :: List.replicate l.length 0 := by simp
      rw [hset]
      exact hih

/-- Setting coefficients of a block sets them in its list. -/
theorem coeffs_foldl_set (xs : List (Int16 × ℕ)) (q : Quant) :
    (xs.foldl (fun q x => q.set x.2 x.1) q).coeffs =
      xs.foldl (fun acc x => acc.set x.2 x.1) q.coeffs := by
  induction xs generalizing q with
  | nil => rfl
  | cons x xs ih => exact ih (q.set x.2 x.1)

/-- A coefficient reads back. -/
theorem decodeCoeffs_encodeCoeff (count : ℕ) (x : Int16 × ℕ) (rest : List UInt8) (q : Quant) :
    decodeCoeffs (count + 1) (encodeCoeff x ++ rest) q =
      decodeCoeffs count rest (if (UInt8.ofNat x.2).toNat < 64 then
        q.set (UInt8.ofNat x.2).toNat x.1 else q) := by
  have hbytes : ofLE (leBytes 2 x.1.toUInt16.toNat) = x.1.toUInt16.toNat := by
    rw [ofLE_leBytes]
    exact Nat.mod_eq_of_lt x.1.toUInt16.toNat_lt
  have hvalue : Int16.ofUInt16 (UInt16.ofNat (ofLE (leBytes 2 x.1.toUInt16.toNat))) = x.1 := by
    rw [hbytes, UInt16.ofNat_toNat]
  calc decodeCoeffs (count + 1) (encodeCoeff x ++ rest) q =
      decodeCoeffs count rest (if (UInt8.ofNat x.2).toNat < 64 then
        q.set (UInt8.ofNat x.2).toNat
          (.ofUInt16 (.ofNat (ofLE (leBytes 2 x.1.toUInt16.toNat)))) else q) := rfl
    _ = _ := by rw [hvalue]

/-- The coefficients of a list are set one after the other, and what follows is left. -/
theorem decodeCoeffs_flatMap {xs : List (Int16 × ℕ)} (hxs : ∀ x ∈ xs, x.2 < 64)
    (rest : List UInt8) (q : Quant) :
    decodeCoeffs xs.length (xs.flatMap encodeCoeff ++ rest) q =
      some (xs.foldl (fun q x => q.set x.2 x.1) q, rest) := by
  induction xs generalizing q with
  | nil => rfl
  | cons x xs ih =>
    obtain ⟨hx, hxs⟩ := List.forall_mem_cons.mp hxs
    have hidx : (UInt8.ofNat x.2).toNat = x.2 :=
      UInt8.toNat_ofNat_of_lt' (hx.trans (by decide))
    rw [List.flatMap_cons, List.append_assoc, List.length_cons, decodeCoeffs_encodeCoeff, hidx,
      if_pos hx, ih hxs]
    rfl

/-- A block reads back from its list, and what follows the list is left. -/
theorem decodeBlock_encodeBlock (q : Quant) (rest : List UInt8) :
    decodeBlock (encodeBlock q ++ rest) = some (q, rest) := by
  have hcount : (UInt8.ofNat q.nonzero.length).toNat = q.nonzero.length :=
    UInt8.toNat_ofNat_of_lt' (q.length_nonzero_le.trans_lt (by decide))
  unfold encodeBlock
  rw [List.cons_append, decodeBlock, hcount,
    decodeCoeffs_flatMap (fun x hx => Quant.place_lt hx)]
  have hcoeffs := foldl_set_nonzero [] q.coeffs
  congr 2
  apply Quant.ext_coeffs
  rw [coeffs_foldl_set]
  rw [q.length_eq] at hcoeffs
  exact hcoeffs

/-- Coefficients are read when the bytes last for them: three for each. -/
theorem exists_decodeCoeffs {count : ℕ} {cur : List UInt8} (h : 3 * count ≤ cur.length)
    (q : Quant) : ∃ q', decodeCoeffs count cur q = some (q', cur.drop (3 * count)) := by
  -- By induction on the number of coefficients, as the loop runs.
  induction count generalizing cur q with
  | zero => exact ⟨q, rfl⟩
  | succ count ih =>
    match cur with
    | idx :: lo :: hi :: rest =>
      have hrest : 3 * count ≤ rest.length := by
        simp only [List.length_cons] at h
        omega
      obtain ⟨q', hq'⟩ := ih hrest
        (if idx.toNat < 64 then q.set idx.toNat (.ofUInt16 (.ofNat (ofLE [lo, hi]))) else q)
      exact ⟨q', hq'⟩
    | [] | [_] | [_, _] =>
      simp only [List.length_cons, List.length_nil] at h
      omega

/-- When the bytes do not last, reading stops with an error. -/
theorem decodeCoeffs_eq_none {count : ℕ} {cur : List UInt8} (h : cur.length < 3 * count)
    (q : Quant) : decodeCoeffs count cur q = none := by
  induction count generalizing cur q with
  | zero => omega
  | succ count ih =>
    match cur with
    | idx :: lo :: hi :: rest =>
      have hrest : rest.length < 3 * count := by
        simp only [List.length_cons] at h
        omega
      exact ih hrest _
    | [] | [_] | [_, _] => rfl

/-- A block reads back from its list, and what follows the list is left. On any bytes, the first one
says how many coefficients follow: when there are three bytes for each of them, a block is read and
exactly these bytes are consumed, and otherwise reading ends with an error. -/
theorem block_codec_total :
    (∀ (q : Quant) (rest : List UInt8), decodeBlock (encodeBlock q ++ rest) = some (q, rest)) ∧
      decodeBlock [] = none ∧
      ∀ (count : UInt8) (data : List UInt8),
        if 3 * count.toNat ≤ data.length then
          ∃ q, decodeBlock (count :: data) = some (q, data.drop (3 * count.toNat))
        else decodeBlock (count :: data) = none := by
  refine ⟨decodeBlock_encodeBlock, rfl, fun count data => ?_⟩
  split
  · next hle => exact exists_decodeCoeffs hle .zero
  · next hlt => exact decodeCoeffs_eq_none (Nat.lt_of_not_le hlt) .zero

/-! ## Tiles -/

/-- A transform between the samples of a block and quantised coefficients. -/
structure Dct where
  /-- `fdct` of the samples of a block, with the coefficients divided by `QUANT` and rounded. -/
  forward : List UInt8 → Quant
  /-- `idct` of the coefficients times `QUANT`, with the samples rounded and clamped. -/
  inverse : Quant → Bytes 64

/-- `QUANT`. -/
def quantStep : Float32 := 12

section

variable (cos : Float32 → Float32)

/-- `dct_cos`. -/
def dctCos (a u : ℕ) : Float32 := cos (asF32 (2 * a + 1) * asF32 u * .ofBits 0x40490FDB / 16)

/-- `alpha`. -/
def alpha (u : ℕ) : Float32 := if u = 0 then (1 / 2 : Float32).sqrt else 1

/-- A term of the sum in `fdct`, for the sample at `k` and the coefficient at `i`. -/
def fdctTerm (block : List Float32) (i k : ℕ) : Float32 :=
  block.getD k 0 * dctCos cos (k % 8) (i % 8) * dctCos cos (k / 8) (i / 8)

/-- `fdct`. -/
def fdct (block : List Float32) : List Float32 :=
  (List.range 64).map fun i =>
    0.25 * alpha (i % 8) * alpha (i / 8) *
      (List.range 64).foldl (fun sum k => sum + fdctTerm cos block i k) 0

/-- A term of the sum in `idct`, for the coefficient at `i` and the sample at `k`. -/
def idctTerm (coeff : List Float32) (k i : ℕ) : Float32 :=
  alpha (i % 8) * alpha (i / 8) * coeff.getD i 0 * dctCos cos (k % 8) (i % 8) *
    dctCos cos (k / 8) (i / 8)

/-- `idct`. -/
def idct (coeff : List Float32) : List Float32 :=
  (List.range 64).map fun k =>
    0.25 * (List.range 64).foldl (fun sum i => sum + idctTerm cos coeff k i) 0

/-- A coefficient is divided by `QUANT`, rounded and cast. -/
def quantise (c : Float32) : Int16 :=
  .ofInt (clampTo (-2 ^ 15) (2 ^ 15 - 1) (roundF32 (c / quantStep)))

/-- A sample is rounded, clamped and cast. -/
def sample (x : Float32) : UInt8 := .ofNat (clampTo 0 255 (roundF32 x)).toNat

/-- The transform of the source, with the cosine that the platform has. -/
def floatDct : Dct where
  forward block :=
    ⟨(fdct cos (block.map fun b => asF32 b.toNat)).map quantise, by simp [fdct]⟩
  inverse q :=
    ⟨(idct cos (q.coeffs.map fun v => intAsF32 v.toInt * quantStep)).map sample, by simp [idct]⟩

end

/-- `ZIGZAG`. -/
def zigzag : List ℕ :=
  [0, 1, 8, 16, 9, 2, 3, 10, 17, 24, 32, 25, 18, 11, 4, 5, 12, 19, 26, 33, 40, 48, 41, 34, 27, 20,
    13, 6, 7, 14, 21, 28, 35, 42, 49, 56, 57, 50, 43, 36, 29, 22, 15, 23, 30, 37, 44, 51, 58, 59,
    52, 45, 38, 31, 39, 46, 53, 60, 61, 54, 47, 55, 62, 63]

/-- The coefficients in zig-zag order. -/
def Quant.scan (q : Quant) : Quant := ⟨zigzag.map fun z => q.coeffs.getD z 0, rfl⟩

/-- The zig-zag order only moves the coefficients. -/
theorem Quant.coeffs_scan_perm (q : Quant) : q.scan.coeffs.Perm q.coeffs := by
  have hzigzag : zigzag.Perm (List.range 64) := by decide
  have hrow : (List.range 64).map (fun z => q.coeffs.getD z 0) = q.coeffs := by
    apply List.ext_getElem (by rw [List.length_map, List.length_range, q.length_eq])
    intro k _ hk
    rw [List.getElem_map, List.getElem_range, List.getD_eq_getElem _ _ hk]
  have hperm := hzigzag.map fun z => q.coeffs.getD z 0
  rwa [hrow] at hperm

/-- The coefficients back from zig-zag order. -/
def Quant.unscan (q : Quant) : Quant :=
  (zigzag.zip q.coeffs).foldl (fun coeff x => coeff.set x.1 x.2) .zero

/-- A channel and the row and the column of a block. -/
structure BlockPlace where
  /-- The channel. -/
  ch : ℕ
  /-- The row of blocks. -/
  row : ℕ
  /-- The column of blocks. -/
  col : ℕ

/-- The blocks of a tile, in the order of the loops. -/
def blockPlaces : List BlockPlace :=
  (List.range 3).flatMap fun ch => (List.range 4).flatMap fun row => (List.range 4).map fun col =>
    ⟨ch, row, col⟩

/-- The offset in a tile of sample `k` of a block. -/
def BlockPlace.offset (p : BlockPlace) (k : ℕ) : ℕ :=
  ((p.row * 8 + k / 8) * tileSizePx + (p.col * 8 + k % 8)) * 4 + p.ch

/-- The samples of a block of a tile. -/
def blockAt (pixels : List UInt8) (p : BlockPlace) : List UInt8 :=
  (List.range 64).map fun k => pixels.getD (p.offset k) 0

/-- A tile with the samples of a block. -/
def placeBlock (tile : Bytes tileBytes) (p : BlockPlace) (block : Bytes 64) : Bytes tileBytes :=
  (List.range 64).foldl (fun tile k => ⟨tile.val.set (p.offset k) (block.val.getD k 0), by simp⟩)
    tile

/-- A tile with nothing but its alpha. -/
def alphaTile : Bytes tileBytes :=
  ⟨(List.replicate (tileBytes / 4) [0, 0, 0, 0xFF]).flatten, by decide +kernel⟩

section

variable (dct : Dct)

/-- The quantised block of a tile, in zig-zag order. -/
def quantAt (pixels : List UInt8) (p : BlockPlace) : Quant := (dct.forward (blockAt pixels p)).scan

/-- `encode_tile`. -/
def encodeTile (pixels : List UInt8) : List UInt8 :=
  blockPlaces.flatMap fun p => encodeBlock (quantAt dct pixels p)

/-- A block is read and placed in the tile. -/
def decodeNext (st : Bytes tileBytes × List UInt8) (p : BlockPlace) :
    Option (Bytes tileBytes × List UInt8) := do
  let (quant, cur) ← decodeBlock st.2
  pure (placeBlock st.1 p (dct.inverse quant.unscan), cur)

/-- `decode_tile`. -/
def decodeTile (data : List UInt8) : Option (Bytes tileBytes) :=
  (blockPlaces.foldlM (decodeNext dct) (alphaTile, data)).map Prod.fst

/-- The codec with a transform. -/
def pictureCodec : PictureCodec := ⟨encodeTile dct, decodeTile dct⟩

/-- How many coefficients of a tile are not zero. -/
def nonzeros (pixels : List UInt8) : ℕ :=
  (blockPlaces.flatMap fun p => (quantAt dct pixels p).coeffs).countP (· ≠ 0)

/-- The blocks of a tile are read one after the other. -/
theorem foldlM_decodeNext (pixels : List UInt8) (ps : List BlockPlace) (tile : Bytes tileBytes)
    (rest : List UInt8) :
    ∃ tile', ps.foldlM (decodeNext dct)
        (tile, (ps.flatMap fun p => encodeBlock (quantAt dct pixels p)) ++ rest) =
      some (tile', rest) := by
  induction ps generalizing tile with
  | nil => exact ⟨tile, rfl⟩
  | cons p ps ih =>
    obtain ⟨tile', htile'⟩ := ih (placeBlock tile p (dct.inverse (quantAt dct pixels p).unscan))
    refine ⟨tile', ?_⟩
    rw [List.flatMap_cons, List.append_assoc, List.foldlM_cons, decodeNext,
      decodeBlock_encodeBlock]
    exact htile'

/-- What is encoded is decoded to a tile. -/
theorem exists_decodeTile (pixels : List UInt8) :
    ∃ tile, decodeTile dct (encodeTile dct pixels) = some tile := by
  obtain ⟨tile, htile⟩ := foldlM_decodeNext dct pixels blockPlaces alphaTile []
  rw [List.append_nil] at htile
  refine ⟨tile, ?_⟩
  unfold decodeTile encodeTile
  rw [htile]
  rfl

/-- The length of a block. -/
theorem length_encodeBlock (q : Quant) :
    (encodeBlock q).length = 1 + 3 * q.coeffs.countP (· ≠ 0) := by
  have hcoeff : ∀ x, (encodeCoeff x).length = 3 := by
    intro x
    rw [encodeCoeff, List.length_cons, length_leBytes]
  rw [encodeBlock, List.length_cons, length_flatMap_of_length hcoeff, q.length_nonzero]
  omega

/-- The length of the blocks of a tile. -/
theorem length_blocks (pixels : List UInt8) (ps : List BlockPlace) :
    (ps.flatMap fun p => encodeBlock (quantAt dct pixels p)).length =
      ps.length + 3 * (ps.flatMap fun p => (quantAt dct pixels p).coeffs).countP (· ≠ 0) := by
  induction ps with
  | nil => rfl
  | cons p ps ih =>
    rw [List.flatMap_cons, List.length_append, ih, length_encodeBlock, List.flatMap_cons,
      List.countP_append, List.length_cons]
    omega

/-- The length of a tile: one byte for each block and three for each coefficient. -/
theorem length_encodeTile (pixels : List UInt8) :
    (encodeTile dct pixels).length = 48 + 3 * nonzeros dct pixels :=
  length_blocks dct pixels blockPlaces

/-- A tile has at most 3072 coefficients. -/
theorem nonzeros_le (pixels : List UInt8) : nonzeros dct pixels ≤ 3072 := by
  calc nonzeros dct pixels ≤ (blockPlaces.flatMap fun p => (quantAt dct pixels p).coeffs).length :=
        List.countP_le_length
    _ = blockPlaces.length * 64 :=
        length_flatMap_of_length (fun p => (quantAt dct pixels p).length_eq) _
    _ = 3072 := rfl

end

/-! ## What the receiver accepts -/

/-- The frame that the sender makes of a tile. -/
def frameOf (picture : PictureCodec) (col row : UInt32) (tile : List UInt8) : ScreenFrame :=
  let (encoding, data) := match paletteEncode tile with
    | .ok d => (encPalette, d)
    | .error _ => (encDct, picture.encodeTile tile)
  .tile col row encoding data

/-- The sender makes a frame of the tile that it extracts. -/
theorem tileFrame_eq (picture : PictureCodec) (grid : TileGrid) (pixels : List UInt8) (stride : ℕ)
    (coord : TileCoord) :
    tileFrame picture grid pixels stride coord =
      (grid.extractTile pixels stride coord).map
        (frameOf picture (.ofNat coord.col) (.ofNat coord.row)) := by
  unfold tileFrame
  cases grid.extractTile pixels stride coord <;> rfl

/-- The receiver decodes a frame to one with a tile, and decodes the tile. -/
def ScreenFrame.Accepted (picture : PictureCodec) (f : ScreenFrame) : Prop :=
  ∃ col row encoding data tile, ScreenFrame.decode f.encode = .ok (.tile col row encoding data) ∧
    ScreenReceiver.decodeTile picture encoding data = .ok tile

/-- The low 16 bits of a number, which are what is sent of it. -/
def low16 (x : UInt32) : UInt32 := .ofNat (x.toNat % 2 ^ 16)

/-- The low 16 bits are the remainder. -/
theorem toNat_low16 (x : UInt32) : (low16 x).toNat = x.toNat % 2 ^ 16 :=
  UInt32.toNat_ofNat_of_lt' ((Nat.mod_lt _ (by decide)).trans (by decide))

/-- They are below `2 ^ 16`. -/
theorem low16_lt (x : UInt32) : (low16 x).toNat < 2 ^ 16 := by
  rw [toNat_low16]
  exact Nat.mod_lt _ (by decide)

/-- The place of a tile is sent with 16 bits. -/
theorem encode_tile_low16 (col row : UInt32) (encoding : UInt8) (data : List UInt8) :
    (ScreenFrame.tile col row encoding data).encode =
      (ScreenFrame.tile (low16 col) (low16 row) encoding data).encode := by
  have hlow : ∀ x, leBytes 2 x.toNat = leBytes 2 (low16 x).toNat := by
    intro x
    apply leBytes_eq_of_mod_eq
    rw [toNat_low16]
    exact (Nat.mod_mod _ _).symm
  rw [ScreenFrame.encode, ScreenFrame.encode, hlow col, hlow row]

/-- A tile of fewer than `2^16` bytes is accepted when it is no longer than a tile and decodes. -/
theorem accepted_tile_iff (picture : PictureCodec) (col row : UInt32) (encoding : UInt8)
    {data : List UInt8} (hlen : data.length < 2 ^ 16) :
    (ScreenFrame.tile col row encoding data).Accepted picture ↔
      data.length ≤ tileBytes ∧
        ∃ tile, ScreenReceiver.decodeTile picture encoding data = .ok tile := by
  constructor
  · rintro ⟨col', row', encoding', data', tile, hdec, htile⟩
    obtain ⟨⟨-, -, hle⟩, suffix, hsuffix⟩ := ScreenFrame.decode_ok.mp hdec
    have hlt' : data'.length < 2 ^ 16 := hle.trans_lt (by decide)
    -- The fields have fixed widths, so they are the same one by one.
    simp only [ScreenFrame.encode, List.cons_append, List.append_assoc, List.cons.injEq,
      true_and] at hsuffix
    obtain ⟨-, hafterCol⟩ := List.append_inj hsuffix (by simp)
    obtain ⟨-, hafterRow⟩ := List.append_inj hafterCol (by simp)
    obtain ⟨rfl, hpayload⟩ := List.cons.inj hafterRow
    obtain ⟨hlength, hdata⟩ := List.append_inj hpayload (by simp)
    have heq : data'.length = data.length := leBytes_inj hlt' hlen hlength
    obtain ⟨rfl, -⟩ := List.append_inj (hdata.trans (List.append_nil data).symm) heq
    exact ⟨hle, tile, htile⟩
  · rintro ⟨hle, tile, htile⟩
    refine ⟨low16 col, low16 row, encoding, data, tile, ?_, htile⟩
    rw [encode_tile_low16]
    exact ScreenFrame.decode_encode ⟨low16_lt col, low16_lt row, hle⟩

/-- A tile is accepted exactly when it has at most 16 colours, or its coefficients are few enough
to be no longer than a tile. -/
theorem accepted_iff (dct : Dct) (tile : Bytes tileBytes) (col row : UInt32) :
    (frameOf (pictureCodec dct) col row tile.val).Accepted (pictureCodec dct) ↔
      (colors tile.val).toFinset.card ≤ paletteColorLimit ∨
        48 + 3 * nonzeros dct tile.val ≤ tileBytes := by
  have hpalette := exists_paletteEncode_iff tile.length_val
  unfold frameOf
  cases henc : paletteEncode tile.val with
  | ok data =>
    -- The palette coder takes the tile, and reads it back.
    have hcard := hpalette.mp ⟨data, henc⟩
    obtain ⟨data', henc', hle, hdec⟩ := paletteDecode_paletteEncode tile.length_val hcard
    obtain rfl : data = data' := Except.ok.inj (henc.symm.trans henc')
    refine iff_of_true ?_ (.inl hcard)
    rw [accepted_tile_iff _ _ _ _ (hle.trans_lt (by decide))]
    refine ⟨hle, (colors tile.val).flatMap Bgr.pixel, ?_⟩
    simp only [ScreenReceiver.decodeTile, if_true, hdec]
  | error e =>
    have hcard : ¬ (colors tile.val).toFinset.card ≤ paletteColorLimit := by
      intro h
      obtain ⟨data, hdata⟩ := hpalette.mpr h
      rw [henc] at hdata
      cases hdata
    have hbound := nonzeros_le dct tile.val
    have hlen := length_encodeTile dct tile.val
    change (ScreenFrame.tile col row encDct (encodeTile dct tile.val)).Accepted _ ↔ _
    rw [accepted_tile_iff _ _ _ _ (by omega), hlen, or_iff_right hcard, and_iff_left]
    obtain ⟨decoded, hdecoded⟩ := exists_decodeTile dct tile.val
    refine ⟨decoded.val, ?_⟩
    have hpal : ¬ encDct = encPalette := by decide
    have hraw : ¬ encDct = encRaw := by decide
    simp only [ScreenReceiver.decodeTile, hpal, hraw, if_false, if_true, pictureCodec, hdecoded]

/-- The frame of every tile that the sender extracts is accepted if and only if the tile has at most
16 colours, or at most 1349 of its quantised coefficients are not zero. -/
theorem sent_tile_accepted_iff (dct : Dct) :
    (∀ grid pixels stride coord, tileFrame (pictureCodec dct) grid pixels stride coord =
      (grid.extractTile pixels stride coord).map
        (frameOf (pictureCodec dct) (.ofNat coord.col) (.ofNat coord.row))) ∧
    ∀ (tile : Bytes tileBytes) (col row : UInt32),
      (frameOf (pictureCodec dct) col row tile.val).Accepted (pictureCodec dct) ↔
        (colors tile.val).toFinset.card ≤ paletteColorLimit ∨ nonzeros dct tile.val ≤ 1349 := by
  refine ⟨tileFrame_eq (pictureCodec dct), ?_⟩
  intro tile col row
  have hbound : 48 + 3 * nonzeros dct tile.val ≤ tileBytes ↔ nonzeros dct tile.val ≤ 1349 := by
    unfold tileBytes
    omega
  rw [accepted_iff, hbound]

/-! ## A tile that is refused -/

/-- The cosines of the 45 angles of the transform, by their bits. -/
def cosines : List (UInt32 × UInt32) :=
  [(0x00000000, 0x3F800000), (0x3E490FDB, 0x3F7B14BE), (0x3EC90FDB, 0x3F6C835E),
    (0x3F16CBE4, 0x3F54DB31), (0x3F490FDB, 0x3F3504F3), (0x3F7B53D2, 0x3F0E39D9),
    (0x3F96CBE4, 0x3EC3EF15), (0x3FAFEDE0, 0x3E47C5BC), (0x3FE231D6, 0xBE47C5C2),
    (0x4016CBE4, 0xBF3504F3), (0x403C7EDD, 0xBF7B14BF), (0x406231D6, 0xBF6C835E),
    (0x4083F268, 0xBF0E39D6), (0x3FFB53D2, 0xBEC3EF18), (0x407B53D2, 0xBF3504F1),
    (0x409D1463, 0x3E47C5C8), (0x40BC7EDD, 0x3F6C835F), (0x40DBE958, 0x3F54DB2D),
    (0x402FEDE0, 0xBF6C8360), (0x40AFEDE0, 0x3F3504F7), (0x4103F268, 0xBEC3EF25),
    (0x4119F024, 0xBF7B14BD), (0x40A9A561, 0x3F0E39DD), (0x40E231D6, 0x3F3504F3),
    (0x410D5F26, 0xBF54DB34), (0x4129A561, 0xBEC3EF06), (0x4145EB9C, 0x3F7B14C1),
    (0x400A3AE7, 0xBF0E39DC), (0x408A3AE7, 0xBEC3EF0B), (0x40CF585A, 0x3F7B14BE),
    (0x410A3AE7, 0xBF3504FB), (0x412CC9A0, 0xBE47C5BB), (0x414F585A, 0x3F6C835B),
    (0x4171E713, 0xBF54DB31), (0x40235CE2, 0xBF54DB32), (0x40A35CE2, 0x3EC3EF1B),
    (0x40F50B53, 0x3E47C5B1), (0x41235CE2, 0xBF3504EF), (0x414C341A, 0x3F7B14BF),
    (0x41750B53, 0xBF6C8362), (0x418EF146, 0x3F0E39E9), (0x413C7EDD, 0x3F3504F4),
    (0x416B9E95, 0xBF0E39E4), (0x418D5F26, 0x3EC3EF25), (0x41A4EF02, 0xBE47C614)]

/-- The cosine, correctly rounded, at the angles of the transform. -/
def cosOfTable (x : Float32) : Float32 := .ofBits ((cosines.lookup x.toBits).getD 0)

/-- A pixel of the tile: black but in the upper left corner of each block, where it is bright and
has the number of the block as its blue. -/
def cornerPixel (i : ℕ) : Bgr :=
  if i / tileSizePx % 8 = 0 ∧ i % tileSizePx % 8 = 0 then
    ⟨.ofNat (i / tileSizePx / 8 * 4 + i % tileSizePx / 8), 255, 255⟩
  else ⟨0, 0, 0⟩

/-- The tile of these pixels. -/
def cornerTile : List UInt8 := ((List.range (tileBytes / 4)).map cornerPixel).flatMap Bgr.pixel

/-- The samples of a block with nothing but its corner. -/
def cornerBlock : List UInt8 := 255 :: List.replicate 63 0

/-- Zero times a cosine is zero, of either sign. -/
theorem isZero_mul_dctCos {z : Float32} (hz : IsZero z) {a u : ℕ} (ha : a < 8) (hu : u < 8) :
    IsZero (z * dctCos cosOfTable a u) := by
  have hpos : ∀ a < 8, ∀ u < 8, IsZero (0 * dctCos cosOfTable a u) := by decide +kernel
  have hneg : ∀ a < 8, ∀ u < 8, IsZero (-0 * dctCos cosOfTable a u) := by decide +kernel
  rcases hz with rfl | rfl
  · exact hpos a ha u hu
  · exact hneg a ha u hu

/-- The sum of `fdct` for the coefficient at `i` after the corner. -/
def cornerSum (i : ℕ) : Float32 :=
  0 + fdctTerm cosOfTable (cornerBlock.map fun b => asF32 b.toNat) i 0

/-- Zeros do not change it. -/
theorem cornerSum_add_zero {i : ℕ} (hi : i < 64) {z : Float32} (hz : IsZero z) :
    cornerSum i + z = cornerSum i := by
  have hboth : ∀ i < 64, cornerSum i + 0 = cornerSum i ∧ cornerSum i + -0 = cornerSum i := by
    decide +kernel
  rcases hz with rfl | rfl
  · exact (hboth i hi).1
  · exact (hboth i hi).2

/-- The sum of `fdct` for a block with nothing but its corner. -/
theorem foldl_fdctTerm_corner {i : ℕ} (hi : i < 64) :
    (List.range 64).foldl
        (fun sum k => sum + fdctTerm cosOfTable (cornerBlock.map fun b => asF32 b.toNat) i k) 0 =
      cornerSum i := by
  rw [List.range_succ_eq_map, List.foldl_cons, List.foldl_map]
  refine foldl_add_zeros (fun z hz => cornerSum_add_zero hi hz) ?_
  intro k hk
  have hlt : k + 1 < 64 := Nat.succ_lt_succ (List.mem_range.mp hk)
  have hblack : ∀ k < 63, (cornerBlock.map fun b => asF32 b.toNat).getD (k + 1) 0 = 0 := by
    decide +kernel
  unfold fdctTerm
  rw [hblack k (List.mem_range.mp hk)]
  exact isZero_mul_dctCos (isZero_mul_dctCos (.inl rfl) (by omega) (by omega)) (by omega) (by omega)

/-- Such a block has 61 coefficients that are not zero. -/
theorem countP_forward_corner :
    ((floatDct cosOfTable).forward cornerBlock).coeffs.countP (· ≠ 0) = 61 := by
  have hfdct : fdct cosOfTable (cornerBlock.map fun b => asF32 b.toNat) =
      (List.range 64).map fun i => 0.25 * alpha (i % 8) * alpha (i / 8) * cornerSum i := by
    refine List.map_congr_left fun i hi => ?_
    rw [foldl_fdctTerm_corner (List.mem_range.mp hi)]
  change ((fdct cosOfTable _).map quantise).countP (· ≠ 0) = 61
  rw [hfdct]
  decide +kernel

/-- The green and the red blocks of the tile have nothing but their corners. -/
theorem blockAt_cornerTile {p : BlockPlace} (hch : p.ch = 1 ∨ p.ch = 2) (hrow : p.row < 4)
    (hcol : p.col < 4) : blockAt cornerTile p = cornerBlock := by
  have hpixel : ∀ row < 4, ∀ col < 4, ∀ k < 64, ∀ ch ∈ [1, 2],
      (cornerPixel ((row * 8 + k / 8) * tileSizePx + (col * 8 + k % 8))).pixel[ch]? =
        some (cornerBlock.getD k 0) := by
    decide +kernel
  have hblock : cornerBlock = (List.range 64).map fun k => cornerBlock.getD k 0 := by decide
  rw [hblock]
  refine List.map_congr_left fun k hk => ?_
  have hk := List.mem_range.mp hk
  have hplace : (p.row * 8 + k / 8) * tileSizePx + (p.col * 8 + k % 8) < tileBytes / 4 := by
    unfold tileSizePx tileBytes
    omega
  have hlt : p.ch < 4 := by omega
  rw [List.getD_eq_getElem?_getD, BlockPlace.offset, cornerTile,
    getElem?_flatMap_of_length Bgr.length_pixel _ _ hlt, List.getElem?_map,
    List.getElem?_range hplace, Option.map_some, Option.bind_some,
    hpixel _ hrow _ hcol k hk p.ch (by simpa using hch)]
  rfl

/-- The tile has at least 1952 coefficients that are not zero: 61 in each green and red block. -/
theorem nonzeros_cornerTile : 1952 ≤ nonzeros (floatDct cosOfTable) cornerTile := by
  have hplaces : ∀ p ∈ blockPlaces.drop 16, (p.ch = 1 ∨ p.ch = 2) ∧ p.row < 4 ∧ p.col < 4 := by
    decide
  have hcount : ∀ p ∈ blockPlaces.drop 16,
      (quantAt (floatDct cosOfTable) cornerTile p).coeffs.countP (· ≠ 0) = 61 := by
    intro p hp
    obtain ⟨hch, hrow, hcol⟩ := hplaces p hp
    rw [quantAt, blockAt_cornerTile hch hrow hcol, (Quant.coeffs_scan_perm _).countP_eq,
      countP_forward_corner]
  calc 1952 = ((blockPlaces.drop 16).map fun _ => 61).sum := rfl
    _ = ((blockPlaces.drop 16).map fun p =>
          (quantAt (floatDct cosOfTable) cornerTile p).coeffs.countP (· ≠ 0)).sum := by
        rw [List.map_congr_left hcount]
    _ = ((blockPlaces.drop 16).flatMap fun p =>
          (quantAt (floatDct cosOfTable) cornerTile p).coeffs).countP (· ≠ 0) :=
        List.countP_flatMap.symm
    _ ≤ nonzeros (floatDct cosOfTable) cornerTile :=
        ((List.drop_sublist 16 blockPlaces).flatMap _).countP_le

/-- The tile has more than 16 colours: the corners and black. -/
theorem card_colors_cornerTile : paletteColorLimit < (colors cornerTile).toFinset.card := by
  have hplaces : ∀ i ∈ 1 :: (List.range 16).map fun k => k / 4 * 256 + k % 4 * 8,
      i < tileBytes / 4 := by decide
  exact lt_card_colors hplaces (by decide)

/-- A tile that has 17 colours, of which 16 are those of single bright pixels, takes 5904 bytes or
more after the transform, and is not accepted. -/
theorem corner_tile_refused :
    cornerTile.length = tileBytes ∧
      5904 ≤ (encodeTile (floatDct cosOfTable) cornerTile).length ∧
      ¬ (frameOf (pictureCodec (floatDct cosOfTable)) 0 0 cornerTile).Accepted
        (pictureCodec (floatDct cosOfTable)) := by
  have hlen : cornerTile.length = tileBytes := by
    rw [cornerTile, length_flatMap_of_length Bgr.length_pixel, List.length_map, List.length_range]
    rfl
  have hcount := nonzeros_cornerTile
  refine ⟨hlen, ?_, ?_⟩
  · rw [length_encodeTile]
    omega
  · have haccepted := accepted_iff (floatDct cosOfTable) ⟨cornerTile, hlen⟩ 0 0
    dsimp only at haccepted
    rw [haccepted, not_or]
    refine ⟨Nat.not_le.mpr card_colors_cornerTile, ?_⟩
    unfold tileBytes
    omega

end LowBand.Lowbandd
