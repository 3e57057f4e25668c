import LowBand.Platform.PaletteTile

/-!
# The entropy coder of tiles

`EntropyPaletteEncoder` and `EntropyPaletteDecoder` of `screen_encoder.rs`. A pixel is sent as the
rank of its palette index in an order that starts with the indices of its left and upper neighbour,
in one bit when the rank is zero. The decoder finds the order from the pixels it has decoded.

The order has each index once (`ccoForContext_perm`), so a rank gives its index back, and a rank is
read as it was written (`readEntropyPos_of_remaining`). Both sides keep the indices of the pixels in
a buffer of zeros; the buffers are equal at every pixel, so the orders are, whatever the contexts at
the edges. `entropy_interchangeable` puts the coder beside the one that packs the indices as they
are.
-/

namespace LowBand.Platform

open Lib

/-- `cco_for_context`. -/
def ccoForContext (left above n : ℕ) : List ℕ :=
  left :: ((if above ≠ left then [above] else []) ++
    (List.range n).filter fun i => i ≠ left ∧ i ≠ above)

/-- `write_entropy_pos`. -/
def writeEntropyPos (w : BitWriter) (rank n : ℕ) : BitWriter :=
  if n ≤ 1 then w
  else if rank = 0 then w.writeBits 0 1
  else
    let w := w.writeBits 1 1
    let bpi := bitsPerIndex (n - 1)
    if bpi > 0 then w.writeBits (rank - 1) bpi else w

/-- The number behind a miss. -/
def readMiss (r : BitReader) (n : ℕ) : Option (ℕ × BitReader) :=
  let bpi := bitsPerIndex (n - 1)
  if bpi > 0 then r.readBits bpi else some (0, r)

/-- `read_entropy_pos`. -/
def readEntropyPos (r : BitReader) (n : ℕ) : Option (ℕ × BitReader) :=
  if n ≤ 1 then some (0, r)
  else do
    let (hit, r) ← r.readBits 1
    if hit = 0 then pure (0, r)
    else do
      let (missVal, r) ← readMiss r n
      pure (missVal + 1, r)

/-- The order of the indices at a pixel, from the indices of the pixels before it. -/
def ccoAt (stored : List UInt8) (px n : ℕ) : List ℕ :=
  let row := px / tileSizePx
  let col := px % tileSizePx
  let left := if col > 0 then (stored.getD (px - 1) 0).toNat else 0
  let above := if row > 0 then (stored.getD (px - tileSizePx) 0).toNat else 0
  ccoForContext left above n

/-- The colour of a pixel. -/
def colorAt (pixels : List UInt8) (px : ℕ) : Bgr := Bgr.ofChunk (chunk 4 px pixels)

/-- The encoder at one pixel: its index is stored, and its rank written. -/
def encodePixel (palette : List Bgr) (pixels : List UInt8) (st : List UInt8 × BitWriter) (px : ℕ) :
    List UInt8 × BitWriter :=
  let (stored, w) := st
  let cco := ccoAt stored px palette.length
  let rawIdx := palette.idxOf (colorAt pixels px)
  (stored.set px (UInt8.ofNat rawIdx), writeEntropyPos w (cco.idxOf rawIdx) palette.length)

/-- The bytes of the ranks at some pixels. -/
def rankStream (palette : List Bgr) (pixels : List UInt8) (pxs : List ℕ) (stored : List UInt8) :
    List UInt8 :=
  (pxs.foldl (encodePixel palette pixels) (stored, BitWriter.new)).2.finish

/-- `EntropyPaletteEncoder::encode`. -/
def entropyEncode (pixels : List UInt8) : Except PaletteEncodeError (List UInt8) :=
  if pixels.length ≠ tileBytes then .error (.invalidLength pixels.length)
  else do
    let palette ← buildPalette pixels
    let n := palette.length
    let ranks := if n = 1 then [] else
      rankStream palette pixels (List.range (tileBytes / 4)) (List.replicate (tileBytes / 4) 0)
    pure (UInt8.ofNat n :: (palette.flatMap Bgr.bytes ++ ranks))

/-- The decoder at the pixels that are left. The source indexes the order and the palette by numbers
that are checked to lie in them. -/
def decodePixels (palette : List Bgr) :
    List ℕ → List UInt8 → BitReader → Except PaletteDecodeError (List UInt8)
  | [], _, _ => .ok []
  | px :: pxs, stored, reader =>
    let cco := ccoAt stored px palette.length
    match readEntropyPos reader palette.length with
    | none => .error .truncated
    | some (rank, reader) =>
      if rank ≥ palette.length then .error (.indexOutOfRange rank palette.length)
      else do
        let rawIdx := cco.getD rank 0
        let bgr := palette.getD rawIdx ⟨0, 0, 0⟩
        let pixels ← decodePixels palette pxs (stored.set px (UInt8.ofNat rawIdx)) reader
        pure (bgr.pixel ++ pixels)

/-- `EntropyPaletteDecoder::decode`. -/
def entropyDecode (data : List UInt8) : Except PaletteDecodeError (List UInt8) :=
  match data with
  | [] => .error .truncated
  | first :: _ =>
    let n := first.toNat
    if n = 0 ∨ n > paletteColorLimit then .error (.invalidPaletteSize first)
    else
      let paletteEnd := 1 + n * 3
      if data.length < paletteEnd then .error .truncated
      else
        let palette := (chunksExact 3 ((data.take paletteEnd).drop 1)).map Bgr.ofChunk
        if n = 1 then
          .ok ((List.replicate (tileBytes / 4) (palette.getD 0 ⟨0, 0, 0⟩)).flatMap Bgr.pixel)
        else
          decodePixels palette (List.range (tileBytes / 4)) (List.replicate (tileBytes / 4) 0)
            (.new (data.drop paletteEnd))

/-! ## Ranks -/

/-- The order has each index once. -/
theorem ccoForContext_perm {left above n : ℕ} (hleft : left < n) (habove : above < n) :
    (ccoForContext left above n).Perm (List.range n) := by
  have hrest : ((List.range n).filter fun i => i ≠ left ∧ i ≠ above).Nodup :=
    List.nodup_range.filter _
  unfold ccoForContext
  by_cases hne : above = left
  · rw [if_neg (not_not_intro hne), List.nil_append,
      List.perm_ext_iff_of_nodup (List.nodup_cons.mpr ⟨by simp, hrest⟩) List.nodup_range]
    intro i
    simp only [List.mem_cons, List.mem_filter, List.mem_range, decide_eq_true_eq]
    omega
  · have hnodup : (above :: (List.range n).filter fun i => i ≠ left ∧ i ≠ above).Nodup :=
      List.nodup_cons.mpr ⟨by simp, hrest⟩
    rw [if_pos hne, List.singleton_append, List.perm_ext_iff_of_nodup
      (List.nodup_cons.mpr ⟨by simp [Ne.symm hne], hnodup⟩) List.nodup_range]
    intro i
    simp only [List.mem_cons, List.mem_filter, List.mem_range, decide_eq_true_eq]
    omega

/-- The indices stored are those of the palette. -/
def StoredLt (n : ℕ) (stored : List UInt8) : Prop := ∀ x ∈ stored, x.toNat < n

/-- An index that is stored or, beyond the buffer, zero. -/
theorem StoredLt.getD {n : ℕ} {stored : List UInt8} (h : StoredLt n stored) (hn : 0 < n) (i : ℕ) :
    (stored.getD i 0).toNat < n := by
  rw [List.getD_eq_getElem?_getD]
  cases hi : stored[i]? with
  | none => exact hn
  | some x => exact h x (List.mem_of_getElem? hi)

/-- At every pixel the order has each index once. -/
theorem ccoAt_perm {n : ℕ} {stored : List UInt8} (h : StoredLt n stored) (hn : 0 < n) (px : ℕ) :
    (ccoAt stored px n).Perm (List.range n) := by
  apply ccoForContext_perm
  · split
    · exact h.getD hn _
    · exact hn
  · split
    · exact h.getD hn _
    · exact hn

/-- The rank of an index lies in the order and gives it back. -/
theorem getD_idxOf_ccoAt {n : ℕ} {stored : List UInt8} (h : StoredLt n stored) {idx : ℕ}
    (hidx : idx < n) (px : ℕ) : (ccoAt stored px n).idxOf idx < n ∧
      (ccoAt stored px n).getD ((ccoAt stored px n).idxOf idx) 0 = idx := by
  have hperm := ccoAt_perm h (by omega) px
  have hmem : idx ∈ ccoAt stored px n := hperm.mem_iff.mpr (List.mem_range.mpr hidx)
  have hlt := List.idxOf_lt_length_of_mem hmem
  constructor
  · rwa [hperm.length_eq, List.length_range] at hlt
  · rw [List.getD_eq_getElem?_getD, List.getElem?_idxOf hmem, Option.getD_some]

/-- The bits of a rank, when there is more than one colour. -/
def rankBits (n rank : ℕ) : List Bool :=
  if rank = 0 then [false] else true :: natBits (bitsPerIndex (n - 1)) (rank - 1)

/-- A rank is written as its bits. -/
theorem BitWriter.Wrote.entropyPos {w : BitWriter} {bits : List Bool} (h : w.Wrote bits) {n : ℕ}
    (hn : 1 < n) (rank : ℕ) : (writeEntropyPos w rank n).Wrote (bits ++ rankBits n rank) := by
  unfold writeEntropyPos rankBits
  rw [if_neg (Nat.not_le.mpr hn)]
  split
  · exact h.writeBits 0 1
  · dsimp only
    have hmiss := h.writeBits 1 1
    split
    · have hsuffix := hmiss.writeBits (rank - 1) (bitsPerIndex (n - 1))
      rwa [List.append_assoc] at hsuffix
    · next hzero =>
      rw [show bitsPerIndex (n - 1) = 0 by omega]
      exact hmiss

/-- A rank is read from its bits. -/
theorem readEntropyPos_of_remaining {r : BitReader} (hr : r.Valid) {n rank : ℕ} (hn : 1 < n)
    (hle : n ≤ paletteColorLimit) (hrank : rank < n) {rest : List Bool}
    (h : r.remaining = rankBits n rank ++ rest) :
    ∃ r' : BitReader, readEntropyPos r n = some (rank, r') ∧ r'.Valid ∧ r'.remaining = rest := by
  unfold readEntropyPos
  rw [if_neg (Nat.not_le.mpr hn)]
  unfold rankBits at h
  split at h
  · next hzero =>
    obtain ⟨r', hread, hr', hrest⟩ := BitReader.readBits_of_remaining hr h
    refine ⟨r', ?_, hr', hrest⟩
    rw [List.length_singleton] at hread
    simp [hread, ofBits, hzero]
  · next hmiss =>
    have hbits : r.remaining =
        [true] ++ (natBits (bitsPerIndex (n - 1)) (rank - 1) ++ rest) := h
    obtain ⟨r₁, hread, hr₁, hrest⟩ := BitReader.readBits_of_remaining hr hbits
    rw [List.length_singleton] at hread
    have hlt : rank - 1 < 2 ^ bitsPerIndex (n - 1) := by
      have := le_two_pow_bitsPerIndex (by omega : n - 1 ≤ paletteColorLimit)
      omega
    obtain ⟨r₂, hread₂, hr₂, hrest₂⟩ := BitReader.readBits_of_remaining hr₁ hrest
    rw [length_natBits, ofBits_natBits hlt] at hread₂
    refine ⟨r₂, ?_, hr₂, hrest₂⟩
    -- Without bits the reader is not called, and would have read nothing.
    have hsuffix : readMiss r₁ n = some (rank - 1, r₂) := by
      unfold readMiss
      dsimp only
      split
      · exact hread₂
      · next hzero =>
        rw [show bitsPerIndex (n - 1) = 0 by omega] at hread₂
        exact hread₂
    have hone : ofBits [true] ≠ 0 := by decide
    simp only [hread, hone, hsuffix, Option.bind_eq_bind, Option.bind_some, if_false,
      Option.pure_def, Nat.sub_add_cancel (by omega : 1 ≤ rank)]

/-! ## The round trip -/

section

variable {palette : List Bgr} {pixels : List UInt8}

/-- The bits that the encoder writes at some pixels. -/
def tileBits (palette : List Bgr) (pixels : List UInt8) : List ℕ → List UInt8 → List Bool
  | [], _ => []
  | px :: pxs, stored =>
    let rawIdx := palette.idxOf (colorAt pixels px)
    rankBits palette.length ((ccoAt stored px palette.length).idxOf rawIdx) ++
      tileBits palette pixels pxs (stored.set px (UInt8.ofNat rawIdx))

/-- The encoder writes these bits. -/
theorem wrote_tileBits (hn : 1 < palette.length) (pxs : List ℕ) {stored : List UInt8}
    {w : BitWriter} {bits : List Bool} (h : w.Wrote bits) :
    (pxs.foldl (encodePixel palette pixels) (stored, w)).2.Wrote
      (bits ++ tileBits palette pixels pxs stored) := by
  induction pxs generalizing stored w bits with
  | nil => simpa [tileBits] using h
  | cons px pxs ih =>
    rw [List.foldl_cons, tileBits, ← List.append_assoc]
    exact ih (h.entropyPos hn _)

/-- The pixels of these bits are read back. -/
theorem decodePixels_tileBits (hn : 1 < palette.length) (hle : palette.length ≤ paletteColorLimit)
    {pxs : List ℕ} (hmem : ∀ px ∈ pxs, colorAt pixels px ∈ palette) {stored : List UInt8}
    (hstored : StoredLt palette.length stored) {reader : BitReader} (hr : reader.Valid)
    {pad : List Bool} (h : reader.remaining = tileBits palette pixels pxs stored ++ pad) :
    decodePixels palette pxs stored reader =
      .ok (pxs.flatMap fun px => (colorAt pixels px).pixel) := by
  -- By induction on the pixels: the decoder stores what the encoder stored, so the order at the
  -- next pixel is the same on both sides.
  induction pxs generalizing stored reader with
  | nil => rfl
  | cons px pxs ih =>
    obtain ⟨hpx, hpxs⟩ := List.forall_mem_cons.mp hmem
    have hidx : palette.idxOf (colorAt pixels px) < palette.length :=
      List.idxOf_lt_length_of_mem hpx
    obtain ⟨hrank, hraw⟩ := getD_idxOf_ccoAt hstored hidx px
    rw [tileBits, List.append_assoc] at h
    obtain ⟨reader', hread, hr', hrest⟩ := readEntropyPos_of_remaining hr hn hle hrank h
    have hbyte : (UInt8.ofNat (palette.idxOf (colorAt pixels px))).toNat =
        palette.idxOf (colorAt pixels px) :=
      UInt8.toNat_ofNat_of_lt' ((hidx.trans_le hle).trans (by decide))
    have hnext : StoredLt palette.length
        (stored.set px (UInt8.ofNat (palette.idxOf (colorAt pixels px)))) := by
      intro x hx
      rcases List.mem_or_eq_of_mem_set hx with hx | rfl
      · exact hstored x hx
      · rwa [hbyte]
    have hbgr : palette.getD (palette.idxOf (colorAt pixels px)) ⟨0, 0, 0⟩ =
        colorAt pixels px := by
      rw [List.getD_eq_getElem?_getD, List.getElem?_idxOf hpx, Option.getD_some]
    rw [decodePixels, hread]
    dsimp only
    rw [if_neg (Nat.not_le.mpr hrank), hraw, hbgr, ih hpxs hnext hr' hrest]
    rfl

/-- The decoder reads the ranks that the encoder wrote. -/
theorem decodePixels_rankStream (hn : 1 < palette.length)
    (hle : palette.length ≤ paletteColorLimit) {pxs : List ℕ}
    (hmem : ∀ px ∈ pxs, colorAt pixels px ∈ palette) {stored : List UInt8}
    (hstored : StoredLt palette.length stored) :
    decodePixels palette pxs stored (.new (rankStream palette pixels pxs stored)) =
      .ok (pxs.flatMap fun px => (colorAt pixels px).pixel) := by
  have hwrote : (pxs.foldl (encodePixel palette pixels) (stored, .new)).2.Wrote
      ([] ++ tileBits palette pixels pxs stored) := wrote_tileBits hn pxs .new
  obtain ⟨pad, hbits, -⟩ := hwrote.finish
  exact decodePixels_tileBits hn hle hmem hstored (Nat.zero_lt_succ _) hbits

/-- What the decoder does with a palette and the bytes behind it. -/
theorem entropyDecode_palette (hpos : 0 < palette.length)
    (hle : palette.length ≤ paletteColorLimit) (bytes : List UInt8) :
    entropyDecode (UInt8.ofNat palette.length :: (palette.flatMap Bgr.bytes ++ bytes)) =
      if palette.length = 1 then
        .ok ((List.replicate (tileBytes / 4) (palette.getD 0 ⟨0, 0, 0⟩)).flatMap Bgr.pixel)
      else
        decodePixels palette (List.range (tileBytes / 4)) (List.replicate (tileBytes / 4) 0)
          (.new bytes) := by
  obtain ⟨hn, hlong, hpalette, hrest⟩ := split_header hle (Eq.refl
    (UInt8.ofNat palette.length :: (palette.flatMap Bgr.bytes ++ bytes)))
  have hsize : ¬ (palette.length = 0 ∨ palette.length > paletteColorLimit) := by omega
  simp only [entropyDecode, hn, hsize, hlong, hpalette, hrest, if_false]

/-- What is encoded: the palette and, when there is more than one colour, the ranks. -/
def entropyEncoded (palette : List Bgr) (pixels : List UInt8) : List UInt8 :=
  UInt8.ofNat palette.length :: (palette.flatMap Bgr.bytes ++ if palette.length = 1 then [] else
    rankStream palette pixels (List.range (tileBytes / 4)) (List.replicate (tileBytes / 4) 0))

/-- A tile is encoded with its palette. -/
theorem entropyEncode_ok (hlen : pixels.length = tileBytes)
    (hbuild : buildPalette pixels = .ok palette) :
    entropyEncode pixels = .ok (entropyEncoded palette pixels) := by
  rw [entropyEncode, if_neg (not_not_intro hlen), hbuild]
  rfl

/-- The colours of a tile are those at its pixels. -/
theorem colors_eq_map (hlen : pixels.length = tileBytes) :
    colors pixels = (List.range (tileBytes / 4)).map (colorAt pixels) := by
  rw [colors, chunksExact, List.map_map, hlen]
  rfl

/-- What is encoded is decoded to the colours of the pixels. -/
theorem entropyDecode_encoded (hlen : pixels.length = tileBytes)
    (hpalette : PaletteOf palette (colors pixels)) :
    entropyDecode (entropyEncoded palette pixels) = .ok ((colors pixels).flatMap Bgr.pixel) := by
  have hle := hpalette.length_le
  have hpos := hpalette.length_pos (by rw [length_colors hlen]; decide)
  rw [entropyEncoded, entropyDecode_palette hpos hle]
  split
  · next hone => rw [hpalette.colors_eq_replicate hone, length_colors hlen]
  · next hmore =>
    have hstored : StoredLt palette.length (List.replicate (tileBytes / 4) 0) := by
      intro x hx
      rw [List.eq_of_mem_replicate hx]
      exact hpos
    have hmem : ∀ px ∈ List.range (tileBytes / 4), colorAt pixels px ∈ palette := by
      intro px hpx
      rw [hpalette.mem, colors_eq_map hlen]
      exact List.mem_map_of_mem hpx
    rw [decodePixels_rankStream (by omega) hle hmem hstored, colors_eq_map hlen,
      List.flatMap_map]

/-- Pixels with their alpha set. -/
def setAlpha (pixels : List UInt8) : List UInt8 := (chunksExact 4 pixels).flatMap (·.set 3 0xFF)

/-- Setting alpha keeps the colours, and nothing else. -/
theorem flatMap_pixel_colors (pixels : List UInt8) :
    (colors pixels).flatMap Bgr.pixel = setAlpha pixels := by
  rw [colors, setAlpha, List.flatMap_map]
  apply List.flatMap_congr
  intro c hc
  obtain ⟨b, g, r, a, rfl⟩ := List.length_eq_four.mp (length_of_mem_chunksExact hc)
  rfl

end

/-- A tile is taken by the entropy coder exactly when the palette coder takes it, which is when it
has at most 16 colours, and what the two encoders make of it is decoded to the same pixels: the
tile with its alpha set. -/
theorem entropy_interchangeable (pixels : List UInt8) (hlen : pixels.length = tileBytes) :
    ((∃ data, entropyEncode pixels = .ok data) ↔ ∃ data, paletteEncode pixels = .ok data) ∧
      ((∃ data, paletteEncode pixels = .ok data) ↔
        (colors pixels).toFinset.card ≤ paletteColorLimit) ∧
      ∀ entropy raw, entropyEncode pixels = .ok entropy → paletteEncode pixels = .ok raw →
        entropyDecode entropy = .ok (setAlpha pixels) ∧
          paletteDecode raw = .ok (setAlpha pixels) := by
  -- Both refuse a tile only when its palette cannot be built.
  refine ⟨?_, exists_paletteEncode_iff hlen, fun entropy raw hentropy hraw => ?_⟩
  · rw [exists_paletteEncode_iff hlen, ← exists_buildPalette_iff]
    constructor
    · rintro ⟨data, h⟩
      rw [entropyEncode, if_neg (not_not_intro hlen)] at h
      obtain ⟨palette, hbuild, -⟩ := bind_eq_ok.mp h
      exact ⟨palette, hbuild⟩
    · rintro ⟨palette, hbuild⟩
      exact ⟨_, entropyEncode_ok hlen hbuild⟩
  · -- Both encoders use the palette of the tile.
    obtain ⟨palette, hbuild⟩ :=
      exists_buildPalette_iff.mpr ((exists_paletteEncode_iff hlen).mp ⟨raw, hraw⟩)
    have hpalette := paletteOf_of_buildPalette hbuild
    rw [entropyEncode_ok hlen hbuild] at hentropy
    rw [paletteEncode_ok hlen hbuild] at hraw
    obtain rfl := Except.ok.inj hentropy
    obtain rfl := Except.ok.inj hraw
    rw [← flatMap_pixel_colors]
    exact ⟨entropyDecode_encoded hlen hpalette, paletteDecode_encoded hpalette (length_colors hlen)⟩

/-- A tile of nine shades of grey is encoded by both, and comes back from both decoders. -/
theorem entropy_interchangeable_grey :
    ∃ entropy raw, entropyEncode greyTile = .ok entropy ∧ paletteEncode greyTile = .ok raw ∧
      entropyDecode entropy = .ok (setAlpha greyTile) ∧
      paletteDecode raw = .ok (setAlpha greyTile) := by
  obtain ⟨hsame, hfew, hback⟩ := entropy_interchangeable greyTile length_greyTile
  obtain ⟨raw, hraw⟩ := hfew.mpr card_colors_greyTile
  obtain ⟨entropy, hentropy⟩ := hsame.mpr ⟨raw, hraw⟩
  obtain ⟨hdecEntropy, hdecRaw⟩ := hback entropy raw hentropy hraw
  exact ⟨entropy, raw, hentropy, hraw, hdecEntropy, hdecRaw⟩

end LowBand.Platform
