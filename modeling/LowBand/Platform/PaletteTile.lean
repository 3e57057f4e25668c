import LowBand.Lib.Bits
import LowBand.Lib.FileBytes
import LowBand.Lib.Result
import Mathlib.Data.Finset.Card

/-!
# The palette coder of tiles

`PaletteTileEncoder` and `PaletteTileDecoder` of `screen_encoder.rs`. A tile with few colours is
sent as the list of its colours and an index for each pixel, packed into as few bits as the number
of colours needs.

`BitWriter.Wrote` and `BitReader.remaining` say which bits a writer has written and a reader has
still to read, so that writing and reading are appending to a list and taking from its front.
`buildPalette_ok` says that a tile with at most 16 colours has a palette, and
`paletteDecode_paletteEncode` that such a tile comes back with its alpha set.
-/

namespace LowBand.Platform

open Lib

/-- `TILE_SIZE_PX`. -/
def tileSizePx : ℕ := 32

/-- `TILE_BYTES`. -/
def tileBytes : ℕ := 4096

/-- `PALETTE_COLOR_LIMIT`. -/
def paletteColorLimit : ℕ := 16

/-! ## Bits -/

/-- `bits_per_index`. -/
def bitsPerIndex (n : ℕ) : ℕ :=
  if n ≤ 1 then 0 else if n = 2 then 1 else if n ≤ 4 then 2 else if n ≤ 8 then 3 else 4

/-- `BitWriter`. -/
structure BitWriter where
  /-- The bytes that are full. -/
  buf : List UInt8
  /-- The byte that is being filled. -/
  current : UInt8
  /-- How many bits of it are used. -/
  bitsUsed : ℕ

namespace BitWriter

/-- `BitWriter::new`. -/
def new : BitWriter := ⟨[], 0, 0⟩

/-- One bit is written. -/
def writeBit (w : BitWriter) (bit : Bool) : BitWriter :=
  let current := w.current ||| bit.toUInt8 <<< UInt8.ofNat w.bitsUsed
  if w.bitsUsed + 1 = 8 then ⟨w.buf ++ [current], 0, 0⟩ else ⟨w.buf, current, w.bitsUsed + 1⟩

/-- `write_bits`. -/
def writeBits (w : BitWriter) (value nBits : ℕ) : BitWriter :=
  (List.range nBits).foldl (fun w i => w.writeBit (value.testBit i)) w

/-- `finish`. -/
def finish (w : BitWriter) : List UInt8 := if w.bitsUsed > 0 then w.buf ++ [w.current] else w.buf

/-- The bits written so far. -/
structure Wrote (w : BitWriter) (bits : List Bool) : Prop where
  /-- The current byte is not full. -/
  used_lt : w.bitsUsed < 8
  /-- Its unused bits are zero. -/
  current_lt : w.current.toNat < 2 ^ w.bitsUsed
  /-- The bits are those of the full bytes and of the current one. -/
  bits_eq : bits = bitsOfBytes w.buf ++ natBits w.bitsUsed w.current.toNat

/-- A new writer has written nothing. -/
theorem Wrote.new : new.Wrote [] := ⟨by decide, by decide, rfl⟩

/-- A bit goes to its place in the current byte. -/
theorem natBits_or {n : ℕ} (hn : n < 8) {b : UInt8} (hb : b.toNat < 2 ^ n) (bit : Bool) :
    (b ||| bit.toUInt8 <<< UInt8.ofNat n).toNat < 2 ^ (n + 1) ∧
      natBits (n + 1) (b ||| bit.toUInt8 <<< UInt8.ofNat n).toNat =
        natBits n b.toNat ++ [bit] := by
  have hshift : ∀ n < 8, ∀ bit : Bool,
      (bit.toUInt8 <<< UInt8.ofNat n).toNat = bit.toNat * 2 ^ n := by decide
  -- The place is free, so the disjunction is a sum.
  have hval : (b ||| bit.toUInt8 <<< UInt8.ofNat n).toNat = 2 ^ n * bit.toNat + b.toNat := by
    rw [UInt8.toNat_or, hshift n hn, Nat.or_comm, Nat.mul_comm, Nat.two_pow_add_eq_or_of_lt hb]
  rw [hval]
  have hbit : bit.toNat < 2 := bit.toNat_lt
  constructor
  · have hmul : 2 ^ n * bit.toNat ≤ 2 ^ n * 1 := Nat.mul_le_mul_left _ (by omega)
    rw [pow_succ]
    omega
  · rw [natBits_succ]
    congr 1
    · apply natBits_congr
      intro i hi
      rw [Nat.testBit_two_pow_mul_add _ hb, if_pos hi]
    · rw [Nat.testBit_two_pow_mul_add _ hb, if_neg (lt_irrefl n), Nat.sub_self]
      cases bit <;> rfl

/-- One more bit comes after those written. -/
theorem Wrote.writeBit {w : BitWriter} {bits : List Bool} (h : w.Wrote bits) (bit : Bool) :
    (w.writeBit bit).Wrote (bits ++ [bit]) := by
  obtain ⟨hlt, hbits⟩ := natBits_or h.used_lt h.current_lt bit
  unfold BitWriter.writeBit
  dsimp only
  -- The byte is full now, or it has room for more.
  split
  · next hfull =>
    refine ⟨Nat.zero_lt_succ _, Nat.zero_lt_one, ?_⟩
    rw [hfull] at hbits
    rw [h.bits_eq, List.append_assoc, ← hbits]
    simp [bitsOfBytes, byteBits, natBits]
  · next hroom =>
    refine ⟨lt_of_le_of_ne h.used_lt hroom, hlt, ?_⟩
    rw [h.bits_eq, List.append_assoc, ← hbits]

/-- So do the bits of a number. -/
theorem Wrote.writeBits {w : BitWriter} {bits : List Bool} (h : w.Wrote bits) (value nBits : ℕ) :
    (w.writeBits value nBits).Wrote (bits ++ natBits nBits value) := by
  induction nBits with
  | zero => simpa [BitWriter.writeBits, natBits] using h
  | succ n ih =>
    rw [BitWriter.writeBits, List.range_succ, List.foldl_append, natBits_succ, ← List.append_assoc]
    exact ih.writeBit _

/-- The finished bytes begin with the bits written. -/
theorem Wrote.finish {w : BitWriter} {bits : List Bool} (h : w.Wrote bits) :
    ∃ pad, bitsOfBytes w.finish = bits ++ pad ∧ pad.length < 8 := by
  unfold BitWriter.finish
  split
  · have hused := h.used_lt
    refine ⟨(natBits 8 w.current.toNat).drop w.bitsUsed, ?_, by simp; omega⟩
    -- The current byte is written whole: its bits so far and a padding.
    have htake : (natBits 8 w.current.toNat).take w.bitsUsed =
        natBits w.bitsUsed w.current.toNat := by
      rw [natBits, ← List.map_take, List.take_range, min_eq_left hused.le]
      rfl
    rw [h.bits_eq, List.append_assoc, ← htake, List.take_append_drop]
    simp [bitsOfBytes, byteBits]
  · next hzero =>
    have hused : w.bitsUsed = 0 := by omega
    exact ⟨[], by simp [h.bits_eq, hused, natBits], by decide⟩

end BitWriter

/-- `BitReader`. -/
structure BitReader where
  /-- The bytes. -/
  data : List UInt8
  /-- The byte of the next bit. -/
  bytePos : ℕ
  /-- The place of the next bit in it. -/
  bitPos : ℕ

namespace BitReader

/-- `BitReader::new`. -/
def new (data : List UInt8) : BitReader := ⟨data, 0, 0⟩

/-- One bit is read, when a byte is left. -/
def readBit (r : BitReader) : Option (Bool × BitReader) :=
  match r.data[r.bytePos]? with
  | none => none
  | some byte =>
    let bit := byte.toNat.testBit r.bitPos
    if r.bitPos + 1 = 8 then some (bit, ⟨r.data, r.bytePos + 1, 0⟩)
    else some (bit, ⟨r.data, r.bytePos, r.bitPos + 1⟩)

/-- `read_bits`. -/
def readBits (r : BitReader) (nBits : ℕ) : Option (ℕ × BitReader) :=
  (List.range nBits).foldlM (fun (result, r) i => do
    let (bit, r) ← r.readBit
    pure (result ||| bit.toNat <<< i, r)) (0, r)

/-- The place of the next bit is in a byte. -/
def Valid (r : BitReader) : Prop := r.bitPos < 8

/-- The bits that are still to be read. -/
def remaining (r : BitReader) : List Bool := (bitsOfBytes r.data).drop (8 * r.bytePos + r.bitPos)

/-- The next bit is read from the front of those that remain. -/
theorem readBit_of_remaining {r : BitReader} (hr : r.Valid) {bit : Bool} {rest : List Bool}
    (h : r.remaining = bit :: rest) :
    ∃ r' : BitReader, r.readBit = some (bit, r') ∧ r'.Valid ∧ r'.remaining = rest := by
  have hat : (bitsOfBytes r.data)[8 * r.bytePos + r.bitPos]? = some bit := by
    have hhead := congrArg List.head? h
    rwa [remaining, List.head?_drop] at hhead
  have hrest : (bitsOfBytes r.data).drop (8 * r.bytePos + r.bitPos + 1) = rest := by
    have htail := congrArg List.tail h
    rwa [remaining, List.tail_drop] at htail
  rw [getElem?_bitsOfBytes hr, Option.map_eq_some_iff] at hat
  obtain ⟨byte, hbyte, hbit⟩ := hat
  unfold readBit
  simp only [hbyte, hbit]
  -- The reader goes to the next byte or stays in this one.
  split
  · next hfull =>
    refine ⟨_, rfl, Nat.zero_lt_succ _, ?_⟩
    rw [← hrest, remaining]
    congr 1
    dsimp only
    omega
  · next hroom =>
    exact ⟨_, rfl, lt_of_le_of_ne hr hroom, hrest⟩

/-- The next bits are read as a number. -/
theorem readBits_of_remaining {r : BitReader} (hr : r.Valid) {bits rest : List Bool}
    (h : r.remaining = bits ++ rest) :
    ∃ r' : BitReader, r.readBits bits.length = some (ofBits bits, r') ∧ r'.Valid ∧
      r'.remaining = rest := by
  -- The bits are taken from their low end, so the induction adds one at the high end.
  induction bits using List.reverseRecOn generalizing rest with
  | nil => exact ⟨r, rfl, hr, h⟩
  | append_singleton bits bit ih =>
    rw [List.append_assoc] at h
    obtain ⟨r₁, hread, hr₁, hrem⟩ := ih h
    obtain ⟨r₂, hbit, hr₂, hrest⟩ := readBit_of_remaining hr₁ hrem
    refine ⟨r₂, ?_, hr₂, hrest⟩
    rw [readBits] at hread ⊢
    rw [List.length_append, List.length_singleton, List.range_succ, List.foldlM_append, hread]
    simp [hbit, ofBits_concat]

end BitReader

/-! ## Palettes -/

/-- A colour, as `[B, G, R]`. -/
structure Bgr where
  /-- Blue. -/
  b : UInt8
  /-- Green. -/
  g : UInt8
  /-- Red. -/
  r : UInt8
deriving DecidableEq

namespace Bgr

/-- The colour of a pixel of four bytes. -/
def ofChunk (chunk : List UInt8) : Bgr := ⟨chunk.getD 0 0, chunk.getD 1 0, chunk.getD 2 0⟩

/-- The bytes of a colour in a palette. -/
def bytes (c : Bgr) : List UInt8 := [c.b, c.g, c.r]

/-- The opaque pixel of a colour. -/
def pixel (c : Bgr) : List UInt8 := [c.b, c.g, c.r, 0xFF]

/-- A colour has three bytes. -/
theorem length_bytes (c : Bgr) : c.bytes.length = 3 := rfl

/-- A pixel has four bytes. -/
theorem length_pixel (c : Bgr) : c.pixel.length = 4 := rfl

end Bgr

/-- An opaque pixel is that of its colour. -/
theorem Bgr.pixel_ofChunk {chunk : List UInt8} (hlen : chunk.length = 4)
    (halpha : chunk[3]? = some 0xFF) : (Bgr.ofChunk chunk).pixel = chunk := by
  obtain ⟨b, g, r, a, rfl⟩ := List.length_eq_four.mp hlen
  obtain rfl : a = 0xFF := by simpa using halpha
  rfl

/-- `PaletteEncodeError`. -/
inductive PaletteEncodeError where
  /-- The tile has too many colours. -/
  | tooManyColors (found : ℕ)
  /-- The input is not a tile. -/
  | invalidLength (got : ℕ)
deriving DecidableEq

/-- `PaletteDecodeError`. -/
inductive PaletteDecodeError where
  /-- The data ends too early. -/
  | truncated
  /-- The number of colours is out of range. -/
  | invalidPaletteSize (got : UInt8)
  /-- An index is beyond the palette. -/
  | indexOutOfRange (index paletteSize : ℕ)
deriving DecidableEq

/-- The colours of the pixels, in order. -/
def colors (pixels : List UInt8) : List Bgr := (chunksExact 4 pixels).map Bgr.ofChunk

/-- A colour is looked up in the palette, and added when it is new. -/
def addColor (palette : List Bgr) (bgr : Bgr) : Except PaletteEncodeError (List Bgr) :=
  if palette.contains bgr then .ok palette
  else if palette.length = paletteColorLimit then .error (.tooManyColors (paletteColorLimit + 1))
  else .ok (palette ++ [bgr])

/-- `build_palette`. -/
def buildPalette (pixels : List UInt8) : Except PaletteEncodeError (List Bgr) :=
  (colors pixels).foldlM addColor []

/-- The index stream of the pixels. -/
def indexStream (palette : List Bgr) (bpi : ℕ) (pixels : List UInt8) : List UInt8 :=
  ((colors pixels).foldl (fun w bgr => w.writeBits (palette.idxOf bgr) bpi) BitWriter.new).finish

/-- `PaletteTileEncoder::encode`. -/
def paletteEncode (pixels : List UInt8) : Except PaletteEncodeError (List UInt8) :=
  if pixels.length ≠ tileBytes then .error (.invalidLength pixels.length)
  else do
    let palette ← buildPalette pixels
    let n := palette.length
    let bpi := bitsPerIndex n
    let indices := if bpi > 0 then indexStream palette bpi pixels else []
    pure (UInt8.ofNat n :: (palette.flatMap Bgr.bytes ++ indices))

/-- The pixels of an index stream. -/
def readPixels (palette : List Bgr) (bpi : ℕ) :
    ℕ → BitReader → Except PaletteDecodeError (List UInt8)
  | 0, _ => .ok []
  | count + 1, reader =>
    match reader.readBits bpi with
    | none => .error .truncated
    | some (idx, reader) =>
      match palette[idx]? with
      | none => .error (.indexOutOfRange idx palette.length)
      | some bgr => do
        let pixels ← readPixels palette bpi count reader
        pure (bgr.pixel ++ pixels)

/-- `PaletteTileDecoder::decode`. -/
def paletteDecode (data : List UInt8) : Except PaletteDecodeError (List UInt8) :=
  match data with
  | [] => .error .truncated
  | first :: _ =>
    let n := first.toNat
    if n = 0 ∨ n > paletteColorLimit then .error (.invalidPaletteSize first)
    else
      let paletteEnd := 1 + n * 3
      if data.length < paletteEnd then .error .truncated
      else
        let palette := (chunksExact 3 ((data.take paletteEnd).drop 1)).map Bgr.ofChunk
        let bpi := bitsPerIndex n
        if bpi = 0 then
          .ok ((List.replicate (tileBytes / 4) (palette.getD 0 ⟨0, 0, 0⟩)).flatMap Bgr.pixel)
        else readPixels palette bpi (tileBytes / 4) (.new (data.drop paletteEnd))

/-! ## The round trip -/

/-- A palette collects the colours it has seen, each once. -/
structure PaletteOf (palette seen : List Bgr) : Prop where
  /-- Each colour is there once. -/
  nodup : palette.Nodup
  /-- The palette has the colours seen. -/
  mem : ∀ c, c ∈ palette ↔ c ∈ seen
  /-- There are not too many. -/
  length_le : palette.length ≤ paletteColorLimit

/-- A palette has as many entries as colours were seen. -/
theorem PaletteOf.length_eq {palette seen : List Bgr} (h : PaletteOf palette seen) :
    palette.length = seen.toFinset.card := by
  rw [← List.toFinset_card_of_nodup h.nodup, List.toFinset.ext h.mem]

/-- A colour that is added has been seen. -/
theorem PaletteOf.of_addColor {palette palette' seen : List Bgr} (h : PaletteOf palette seen)
    {bgr : Bgr} (hadd : Platform.addColor palette bgr = .ok palette') :
    PaletteOf palette' (seen ++ [bgr]) := by
  unfold Platform.addColor at hadd
  -- The colour is there already, or is added, or the palette is full.
  split_ifs at hadd with hin hfull
  · obtain rfl := Except.ok.inj hadd
    refine ⟨h.nodup, fun c => ?_, h.length_le⟩
    rw [h.mem, List.mem_append, List.mem_singleton]
    constructor
    · exact .inl
    · rintro (hc | rfl)
      · exact hc
      · exact (h.mem c).mp (List.contains_iff_mem.mp hin)
  · obtain rfl := Except.ok.inj hadd
    have hnew : bgr ∉ palette := fun hmem => hin (List.contains_iff_mem.mpr hmem)
    refine ⟨h.nodup.append (List.nodup_singleton _) (by simpa using hnew), fun c => ?_, ?_⟩
    · rw [List.mem_append, List.mem_append, h.mem]
    · have := h.length_le
      rw [List.length_append, List.length_singleton]
      omega

/-- A colour is added as long as there are not too many. -/
theorem PaletteOf.addColor {palette seen : List Bgr} (h : PaletteOf palette seen) {bgr : Bgr}
    (hcard : (seen ++ [bgr]).toFinset.card ≤ paletteColorLimit) :
    ∃ palette', Platform.addColor palette bgr = .ok palette' ∧
      PaletteOf palette' (seen ++ [bgr]) := by
  suffices hok : ∃ palette', Platform.addColor palette bgr = .ok palette' by
    obtain ⟨palette', hadd⟩ := hok
    exact ⟨palette', hadd, h.of_addColor hadd⟩
  unfold Platform.addColor
  by_cases hin : bgr ∈ palette
  · exact ⟨palette, if_pos (List.contains_iff_mem.mpr hin)⟩
  · -- A new colour is one more than those of the palette.
    have hnew : bgr ∉ seen := fun hseen => hin ((h.mem bgr).mpr hseen)
    have hlen : palette.length ≠ paletteColorLimit := by
      have hone : (seen ++ [bgr]).toFinset.card = seen.toFinset.card + 1 := by
        rw [List.toFinset_append, List.toFinset_cons, List.toFinset_nil, insert_empty_eq,
          Finset.union_singleton, Finset.card_insert_of_notMem (by simpa using hnew)]
      have := h.length_eq
      omega
    exact ⟨palette ++ [bgr], by rw [if_neg (by simpa using hin), if_neg hlen]⟩

/-- Colours that are at most 16 with those seen before are added to the palette. -/
theorem PaletteOf.foldlM {palette seen cs : List Bgr} (h : PaletteOf palette seen)
    (hcard : (seen ++ cs).toFinset.card ≤ paletteColorLimit) :
    ∃ palette', cs.foldlM Platform.addColor palette = .ok palette' ∧
      PaletteOf palette' (seen ++ cs) := by
  induction cs generalizing palette seen with
  | nil => exact ⟨palette, rfl, by simpa using h⟩
  | cons c cs ih =>
    rw [List.append_cons] at hcard ⊢
    have hle : (seen ++ [c]).toFinset.card ≤ paletteColorLimit := by
      refine (Finset.card_le_card ?_).trans hcard
      intro x hx
      simp only [List.mem_toFinset, List.mem_append] at hx ⊢
      exact .inl hx
    obtain ⟨palette₁, hadd, h₁⟩ := h.addColor hle
    obtain ⟨palette₂, hfold, h₂⟩ := ih h₁ hcard
    exact ⟨palette₂, by rw [List.foldlM_cons, hadd]; exact hfold, h₂⟩

/-- Pixels with at most 16 colours have a palette. -/
theorem buildPalette_ok {pixels : List UInt8}
    (h : (colors pixels).toFinset.card ≤ paletteColorLimit) :
    ∃ palette, buildPalette pixels = .ok palette ∧ PaletteOf palette (colors pixels) := by
  have hnil : PaletteOf [] [] := ⟨List.nodup_nil, by simp, by decide⟩
  exact hnil.foldlM h

/-- A palette that is built has the colours of the pixels. -/
theorem paletteOf_of_buildPalette {pixels : List UInt8} {palette : List Bgr}
    (h : buildPalette pixels = .ok palette) : PaletteOf palette (colors pixels) := by
  have hfold : ∀ (cs palette seen : List Bgr), PaletteOf palette seen → ∀ palette',
      cs.foldlM addColor palette = .ok palette' → PaletteOf palette' (seen ++ cs) := by
    intro cs
    induction cs with
    | nil =>
      intro palette seen hpalette palette' h
      obtain rfl := Except.ok.inj h
      rwa [List.append_nil]
    | cons c cs ih =>
      intro palette seen hpalette palette' h
      rw [List.foldlM_cons] at h
      obtain ⟨mid, hadd, h⟩ := bind_eq_ok.mp h
      rw [List.append_cons]
      exact ih mid _ (hpalette.of_addColor hadd) palette' h
  have hnil : PaletteOf [] [] := ⟨List.nodup_nil, by simp, by decide⟩
  exact hfold _ _ _ hnil _ h

/-- Pixels have a palette exactly when they have at most 16 colours. -/
theorem exists_buildPalette_iff {pixels : List UInt8} :
    (∃ palette, buildPalette pixels = .ok palette) ↔
      (colors pixels).toFinset.card ≤ paletteColorLimit := by
  constructor
  · rintro ⟨palette, h⟩
    have hpalette := paletteOf_of_buildPalette h
    exact hpalette.length_eq ▸ hpalette.length_le
  · intro hcard
    obtain ⟨palette, h, -⟩ := buildPalette_ok hcard
    exact ⟨palette, h⟩

/-- The bits of an index stream. -/
def indexBits (palette : List Bgr) (bpi : ℕ) (cs : List Bgr) : List Bool :=
  cs.flatMap fun c => natBits bpi (palette.idxOf c)

/-- The index stream begins with the index of each pixel. -/
theorem bitsOfBytes_indexStream (palette : List Bgr) (bpi : ℕ) (pixels : List UInt8) :
    ∃ pad, bitsOfBytes (indexStream palette bpi pixels) =
      indexBits palette bpi (colors pixels) ++ pad ∧ pad.length < 8 := by
  have hfold : ∀ (cs : List Bgr) (w : BitWriter) (bits : List Bool), w.Wrote bits →
      (cs.foldl (fun w c => w.writeBits (palette.idxOf c) bpi) w).Wrote
        (bits ++ indexBits palette bpi cs) := by
    intro cs
    induction cs with
    | nil => simp [indexBits]
    | cons c cs ih =>
      intro w bits hw
      rw [List.foldl_cons, indexBits, List.flatMap_cons, ← List.append_assoc]
      exact ih _ _ (hw.writeBits _ _)
  exact (hfold _ _ _ .new).finish

/-- An index stream has at most a byte for each two pixels. -/
theorem length_indexStream_le (palette : List Bgr) {bpi : ℕ} (hbpi : bpi ≤ 4)
    (pixels : List UInt8) :
    2 * (indexStream palette bpi pixels).length ≤ (colors pixels).length + 1 := by
  obtain ⟨pad, hbits, hpad⟩ := bitsOfBytes_indexStream palette bpi pixels
  have hlen := congrArg List.length hbits
  have hindex : (indexBits palette bpi (colors pixels)).length = (colors pixels).length * bpi := by
    rw [indexBits, length_flatMap_of_length fun _ => length_natBits _ _]
  have hmul : (colors pixels).length * bpi ≤ (colors pixels).length * 4 :=
    Nat.mul_le_mul_left _ hbpi
  -- Eight bits a byte, and less than a byte of padding.
  rw [length_bitsOfBytes, List.length_append, hindex] at hlen
  omega

/-- The pixels of an index stream are read back. -/
theorem readPixels_ok {palette cs : List Bgr} {bpi : ℕ} (hbpi : palette.length ≤ 2 ^ bpi)
    (hmem : ∀ c ∈ cs, c ∈ palette) {reader : BitReader} (hr : reader.Valid) {pad : List Bool}
    (h : reader.remaining = indexBits palette bpi cs ++ pad) :
    readPixels palette bpi cs.length reader = .ok (cs.flatMap Bgr.pixel) := by
  -- By induction on the pixels: the reader takes one index, and those of the others remain.
  induction cs generalizing reader with
  | nil => rfl
  | cons c cs ih =>
    obtain ⟨hc, hcs⟩ := List.forall_mem_cons.mp hmem
    have hlt : palette.idxOf c < 2 ^ bpi := (List.idxOf_lt_length_of_mem hc).trans_le hbpi
    rw [indexBits, List.flatMap_cons, List.append_assoc] at h
    obtain ⟨reader', hread, hr', hrem⟩ := BitReader.readBits_of_remaining hr h
    rw [length_natBits, ofBits_natBits hlt] at hread
    rw [List.length_cons, readPixels, hread]
    dsimp only
    rw [List.getElem?_idxOf hc]
    dsimp only
    rw [ih hcs hr' hrem]
    rfl

/-- The colours of a palette are read from their bytes. -/
theorem colors_flatMap_bytes (palette : List Bgr) :
    (chunksExact 3 (palette.flatMap Bgr.bytes)).map Bgr.ofChunk = palette := by
  rw [chunksExact_flatMap (by decide) Bgr.length_bytes, List.map_map]
  exact List.map_id palette

/-- The bits of an index are enough for the palette. -/
theorem le_two_pow_bitsPerIndex {n : ℕ} (h : n ≤ paletteColorLimit) : n ≤ 2 ^ bitsPerIndex n := by
  revert n
  decide

/-- An index has at most four bits. -/
theorem bitsPerIndex_le (n : ℕ) : bitsPerIndex n ≤ 4 := by
  unfold bitsPerIndex
  split_ifs <;> decide

/-- What a decoder finds in the number of colours, a palette and the bytes behind it. -/
theorem split_header {palette : List Bgr} (hle : palette.length ≤ paletteColorLimit)
    {data rest : List UInt8}
    (hdata : data = UInt8.ofNat palette.length :: (palette.flatMap Bgr.bytes ++ rest)) :
    (UInt8.ofNat palette.length).toNat = palette.length ∧
      ¬ data.length < 1 + palette.length * 3 ∧
      (chunksExact 3 ((data.take (1 + palette.length * 3)).drop 1)).map Bgr.ofChunk = palette ∧
      data.drop (1 + palette.length * 3) = rest := by
  have hbytes := length_flatMap_of_length Bgr.length_bytes palette
  refine ⟨UInt8.toNat_ofNat_of_lt' (hle.trans_lt (by decide)), ?_, ?_, ?_⟩
  · rw [hdata, List.length_cons, List.length_append, hbytes]
    omega
  · rw [hdata, Nat.add_comm, List.take_succ_cons, List.drop_succ_cons, List.drop_zero,
      List.take_left' hbytes, colors_flatMap_bytes]
  · rw [hdata, Nat.add_comm, List.drop_succ_cons, List.drop_left' hbytes]

/-- What the decoder does with a palette and an index stream. -/
theorem paletteDecode_palette {palette : List Bgr} (hpos : 0 < palette.length)
    (hle : palette.length ≤ paletteColorLimit) (indices : List UInt8) :
    paletteDecode (UInt8.ofNat palette.length :: (palette.flatMap Bgr.bytes ++ indices)) =
      if bitsPerIndex palette.length = 0 then
        .ok ((List.replicate (tileBytes / 4) (palette.getD 0 ⟨0, 0, 0⟩)).flatMap Bgr.pixel)
      else readPixels palette (bitsPerIndex palette.length) (tileBytes / 4) (.new indices) := by
  obtain ⟨hn, hlong, hpalette, hrest⟩ := split_header hle (Eq.refl (UInt8.ofNat palette.length ::
    (palette.flatMap Bgr.bytes ++ indices)))
  have hsize : ¬ (palette.length = 0 ∨ palette.length > paletteColorLimit) := by omega
  simp only [paletteDecode, hn, hsize, hlong, hpalette, hrest, if_false]

/-- The pixels of an index stream are as many as were asked for. -/
theorem length_readPixels {palette : List Bgr} {bpi count : ℕ} {reader : BitReader}
    {pixels : List UInt8} (h : readPixels palette bpi count reader = .ok pixels) :
    pixels.length = 4 * count := by
  induction count generalizing reader pixels with
  | zero =>
    rw [← Except.ok.inj h]
    rfl
  | succ count ih =>
    unfold readPixels at h
    split at h
    · cases h
    · split at h
      · cases h
      · obtain ⟨rest, hrest, heq⟩ := bind_eq_ok.mp h
        rw [← Except.ok.inj heq, List.length_append, Bgr.length_pixel, ih hrest]
        omega

/-- What is decoded is a whole tile. -/
theorem length_of_paletteDecode {data tile : List UInt8} (h : paletteDecode data = .ok tile) :
    tile.length = tileBytes := by
  unfold paletteDecode at h
  split at h
  · cases h
  · dsimp only at h
    split_ifs at h
    · rw [← Except.ok.inj h, length_flatMap_of_length Bgr.length_pixel, List.length_replicate]
      rfl
    · exact length_readPixels h

/-- What is encoded: the palette and, when there is more than one colour, the index stream. -/
def encoded (palette : List Bgr) (pixels : List UInt8) : List UInt8 :=
  UInt8.ofNat palette.length :: (palette.flatMap Bgr.bytes ++
    if bitsPerIndex palette.length > 0 then
      indexStream palette (bitsPerIndex palette.length) pixels else [])

/-- A tile is encoded with its palette. -/
theorem paletteEncode_ok {pixels : List UInt8} (hlen : pixels.length = tileBytes)
    {palette : List Bgr} (hbuild : buildPalette pixels = .ok palette) :
    paletteEncode pixels = .ok (encoded palette pixels) := by
  simp only [paletteEncode, hlen, ne_eq, not_true_eq_false, if_false, hbuild]
  rfl

/-- A tile is encoded exactly when it has at most 16 colours. -/
theorem exists_paletteEncode_iff {pixels : List UInt8} (hlen : pixels.length = tileBytes) :
    (∃ data, paletteEncode pixels = .ok data) ↔
      (colors pixels).toFinset.card ≤ paletteColorLimit := by
  rw [← exists_buildPalette_iff]
  constructor
  · rintro ⟨data, h⟩
    rw [paletteEncode, if_neg (by rw [hlen]; exact not_not_intro rfl)] at h
    obtain ⟨palette, hbuild, -⟩ := bind_eq_ok.mp h
    exact ⟨palette, hbuild⟩
  · rintro ⟨palette, hbuild⟩
    exact ⟨_, paletteEncode_ok hlen hbuild⟩

/-- The colours of a tile. -/
theorem length_colors {pixels : List UInt8} (hlen : pixels.length = tileBytes) :
    (colors pixels).length = tileBytes / 4 := by
  rw [colors, List.length_map, length_chunksExact, hlen]

/-- The colours of some pixels are read from them. -/
theorem colors_flatMap_pixel (cs : List Bgr) : colors (cs.flatMap Bgr.pixel) = cs := by
  rw [colors, chunksExact_flatMap (by decide) Bgr.length_pixel, List.map_map]
  exact List.map_id cs

/-- Pixels whose colours are among at most 16 have at most 16 colours. -/
theorem card_colors_le {palette : List Bgr} (hle : palette.length ≤ paletteColorLimit)
    {cs : List Bgr} (hcs : ∀ c ∈ cs, c ∈ palette) :
    (colors (cs.flatMap Bgr.pixel)).toFinset.card ≤ paletteColorLimit := by
  have hsub : cs.toFinset ⊆ palette.toFinset := by
    intro c hc
    exact List.mem_toFinset.mpr (hcs c (List.mem_toFinset.mp hc))
  rw [colors_flatMap_pixel]
  calc cs.toFinset.card ≤ palette.toFinset.card := Finset.card_le_card hsub
    _ ≤ palette.length := palette.toFinset_card_le
    _ ≤ paletteColorLimit := hle

/-- One of nine shades of grey. -/
def grey (i : ℕ) : Bgr :=
  let v : UInt8 := .ofNat (30 * (i % 9))
  ⟨v, v, v⟩

/-- A tile of these shades, pixel by pixel. -/
def greyTile : List UInt8 := ((List.range (tileBytes / 4)).map grey).flatMap Bgr.pixel

/-- It has as many bytes as a tile. -/
theorem length_greyTile : greyTile.length = tileBytes := by
  rw [greyTile, length_flatMap_of_length Bgr.length_pixel, List.length_map, List.length_range]
  rfl

/-- Its colours are few enough for the palette coder. -/
theorem card_colors_greyTile : (colors greyTile).toFinset.card ≤ paletteColorLimit := by
  have hshade : ∀ c ∈ (List.range (tileBytes / 4)).map grey, c ∈ (List.range 9).map grey := by
    intro c hc
    obtain ⟨i, -, rfl⟩ := List.mem_map.mp hc
    refine List.mem_map.mpr ⟨i % 9, List.mem_range.mpr (Nat.mod_lt _ (by decide)), ?_⟩
    rw [grey, grey, Nat.mod_mod]
  exact card_colors_le (by decide) hshade

/-- At most 16 colours of three bytes and half a byte a pixel. -/
theorem length_encoded_le {palette : List Bgr} (hle : palette.length ≤ paletteColorLimit)
    {pixels : List UInt8} (hcount : (colors pixels).length = tileBytes / 4) :
    (encoded palette pixels).length ≤ tileBytes := by
  have hindices := length_indexStream_le palette (bitsPerIndex_le palette.length) pixels
  rw [hcount] at hindices
  unfold paletteColorLimit at hle
  unfold tileBytes at hindices ⊢
  rw [encoded, List.length_cons, List.length_append, length_flatMap_of_length Bgr.length_bytes]
  split
  · omega
  · rw [List.length_nil]
    omega

/-- A palette of some pixels is not empty. -/
theorem PaletteOf.length_pos {palette seen : List Bgr} (h : PaletteOf palette seen)
    (hseen : 0 < seen.length) : 0 < palette.length := by
  obtain ⟨c, hc⟩ := List.exists_mem_of_length_pos hseen
  exact List.length_pos_of_mem ((h.mem c).mpr hc)

/-- With one colour in the palette every pixel has it. -/
theorem PaletteOf.colors_eq_replicate {palette seen : List Bgr} (h : PaletteOf palette seen)
    (hone : palette.length = 1) : seen = List.replicate seen.length (palette.getD 0 ⟨0, 0, 0⟩) := by
  obtain ⟨c, rfl⟩ := List.length_eq_one_iff.mp hone
  exact List.eq_replicate_iff.mpr ⟨rfl, fun c' hc' => by simpa using (h.mem c').mpr hc'⟩

/-- What is encoded is decoded to the colours of the pixels. -/
theorem paletteDecode_encoded {palette : List Bgr} {pixels : List UInt8}
    (hpalette : PaletteOf palette (colors pixels))
    (hcount : (colors pixels).length = tileBytes / 4) :
    paletteDecode (encoded palette pixels) = .ok ((colors pixels).flatMap Bgr.pixel) := by
  have hle := hpalette.length_le
  have hpos := hpalette.length_pos (by rw [hcount]; decide)
  rw [encoded, paletteDecode_palette hpos hle]
  split
  · next hzero =>
    have hone : palette.length = 1 := by
      have := le_two_pow_bitsPerIndex hle
      rw [hzero] at this
      omega
    rw [hpalette.colors_eq_replicate hone, hcount]
  · next hsome =>
    -- More colours: the decoder reads the indices that the encoder wrote.
    obtain ⟨pad, hbits, -⟩ :=
      bitsOfBytes_indexStream palette (bitsPerIndex palette.length) pixels
    rw [if_pos (Nat.pos_of_ne_zero hsome), ← hcount]
    exact readPixels_ok (le_two_pow_bitsPerIndex hle) (fun c hc => (hpalette.mem c).mpr hc)
      (Nat.zero_lt_succ _) hbits

/-- A tile with at most 16 colours is encoded, in no more bytes than a tile has, and decoded to its
colours with alpha set. -/
theorem paletteDecode_paletteEncode {pixels : List UInt8} (hlen : pixels.length = tileBytes)
    (hcard : (colors pixels).toFinset.card ≤ paletteColorLimit) :
    ∃ data, paletteEncode pixels = .ok data ∧ data.length ≤ tileBytes ∧
      paletteDecode data = .ok ((colors pixels).flatMap Bgr.pixel) := by
  obtain ⟨palette, hbuild, hpalette⟩ := buildPalette_ok hcard
  have hcount := length_colors hlen
  exact ⟨encoded palette pixels, paletteEncode_ok hlen hbuild,
    length_encoded_le hpalette.length_le hcount, paletteDecode_encoded hpalette hcount⟩

end LowBand.Platform
