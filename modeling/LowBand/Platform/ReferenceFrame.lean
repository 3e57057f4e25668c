import LowBand.Lib.Bytes
import LowBand.Lib.Result
import LowBand.Platform.Varint

/-!
# Reference frame packets

`GearAReferenceEncoder` and `GearAReferenceDecoder` of `reference_frame_sender.rs` put a frame into
a packet behind its width and height, and take it out again. Both compare the number of pixel bytes
with `width * height * 3`, which is computed in `u32`. Where a build checks for overflow, a product
that does not fit is an `Overflow`; where it does not, the product wraps. `checks` says which.

Either way a frame that the encoder accepts comes back (`decode_encode_reference`), since the
decoder's product is the encoder's. But a packet from the network may declare any two sizes, and
`soundOn_iff` says for which packets the product is the true one.
-/

namespace LowBand.Platform

open Lib

/-- `TAG_REFERENCE_FRAME`. -/
def tagReferenceFrame : UInt8 := 0x52

/-- `HEADER_WIDTH_OFFSET`. -/
def headerWidthOffset : ℕ := 1

/-- `HEADER_HEIGHT_OFFSET`. -/
def headerHeightOffset : ℕ := 5

/-- `HEADER_LEN`. -/
def headerLen : ℕ := 9

/-- `ReferenceCodecError`. -/
inductive ReferenceCodecError where
  | invalidFrame
  | packetTooShort
  | unknownTag (tag : UInt8)
  | zeroDimension
  | pixelLengthMismatch (expected actual : ℕ)
deriving DecidableEq

/-- `CameraFrame`. -/
structure CameraFrame where
  /-- The pixels, three bytes each. -/
  pixels : List UInt8
  /-- The width in pixels. -/
  width : UInt32
  /-- The height in pixels. -/
  height : UInt32
deriving DecidableEq

/-- `ReferenceFrame`. -/
structure ReferenceFrame where
  /-- The pixels, three bytes each. -/
  pixels : List UInt8
  /-- The width in pixels. -/
  width : UInt32
  /-- The height in pixels. -/
  height : UInt32
deriving DecidableEq

/-- `a * b` on `u32`. -/
def u32Mul (checks : Bool) (a b : UInt32) : Except Overflow UInt32 :=
  if checks ∧ 2 ^ 32 ≤ a.toNat * b.toNat then .error .overflow else .ok (a * b)

/-- `width * height * 3`. -/
def frameBytes (checks : Bool) (width height : UInt32) : Except Overflow UInt32 := do
  let area ← u32Mul checks width height
  u32Mul checks area 3

/-- `CameraFrame::is_valid`. -/
def CameraFrame.isValid (checks : Bool) (frame : CameraFrame) : Except Overflow Bool :=
  if frame.width > 0 ∧ frame.height > 0 then do
    let expected ← frameBytes checks frame.width frame.height
    return frame.pixels.length = expected.toNat
  else .ok false

/-- `GearAReferenceEncoder`. -/
structure GearAReferenceEncoder where
  /-- A reference frame was sent since the last reset. -/
  referenceSent : Bool
deriving DecidableEq

namespace GearAReferenceEncoder

/-- `GearAReferenceEncoder::new`. -/
def new : GearAReferenceEncoder := ⟨false⟩

/-- `encode_reference_frame`: the bytes of the packet, and the encoder after it. -/
def encodeReferenceFrame (checks : Bool) (e : GearAReferenceEncoder) (frame : CameraFrame) :
    Except Overflow (Except ReferenceCodecError (List UInt8) × GearAReferenceEncoder) := do
  let valid ← frame.isValid checks
  if !valid then
    return (.error .invalidFrame, e)
  else
    -- The capacity of the packet's buffer is computed once more.
    let _pixelBytes ← frameBytes checks frame.width frame.height
    return (.ok (tagReferenceFrame :: (leBytes 4 frame.width.toNat ++ leBytes 4 frame.height.toNat
      ++ frame.pixels)), ⟨true⟩)

/-- `reset`. -/
def reset (_ : GearAReferenceEncoder) : GearAReferenceEncoder := ⟨false⟩

end GearAReferenceEncoder

/-- The `u32` at an offset of a packet, in little-endian order. -/
def wordAt (data : List UInt8) (offset : ℕ) : UInt32 := .ofNat (ofLE ((data.drop offset).take 4))

/-- `GearAReferenceDecoder::decode`. -/
def decodeReferenceFrame (checks : Bool) (data : List UInt8) :
    Except Overflow (Except ReferenceCodecError ReferenceFrame) :=
  if data.length < headerLen then .ok (.error .packetTooShort)
  else if data.headD 0 ≠ tagReferenceFrame then .ok (.error (.unknownTag (data.headD 0)))
  else
    let width := wordAt data headerWidthOffset
    let height := wordAt data headerHeightOffset
    if width = 0 ∨ height = 0 then .ok (.error .zeroDimension)
    else do
      let expected ← frameBytes checks width height
      let actual := data.length - headerLen
      if actual ≠ expected.toNat then
        return .error (.pixelLengthMismatch expected.toNat actual)
      else return .ok ⟨data.drop headerLen, width, height⟩

/-! ## The product -/

/-- A product that fits is computed as it is. -/
theorem u32Mul_of_lt (checks : Bool) {a b : UInt32} (h : a.toNat * b.toNat < 2 ^ 32) :
    ∃ c, u32Mul checks a b = .ok c ∧ c.toNat = a.toNat * b.toNat := by
  refine ⟨a * b, if_neg fun hover => Nat.not_lt.mpr hover.2 h, ?_⟩
  rw [UInt32.toNat_mul, Nat.mod_eq_of_lt h]

/-- The number of pixel bytes, when it fits. -/
theorem frameBytes_of_lt (checks : Bool) {width height : UInt32}
    (h : width.toNat * height.toNat * 3 < 2 ^ 32) :
    ∃ n, frameBytes checks width height = .ok n ∧
      n.toNat = width.toNat * height.toNat * 3 := by
  obtain ⟨area, harea, hval⟩ := u32Mul_of_lt checks (a := width) (b := height) (by omega)
  obtain ⟨n, hn, hnval⟩ := u32Mul_of_lt checks (a := area) (b := 3) (by rw [hval]; exact h)
  refine ⟨n, ?_, ?_⟩
  · unfold frameBytes
    rw [harea, ok_bind, hn]
  · rw [hnval, hval]
    rfl

/-- Checked arithmetic overflows when it does not fit. -/
theorem frameBytes_of_ge {width height : UInt32}
    (h : 2 ^ 32 ≤ width.toNat * height.toNat * 3) :
    frameBytes true width height = .error .overflow := by
  unfold frameBytes
  rcases Nat.lt_or_ge (width.toNat * height.toNat) (2 ^ 32) with hlt | hge
  · obtain ⟨area, harea, hval⟩ := u32Mul_of_lt true hlt
    rw [harea, ok_bind]
    refine if_pos ⟨rfl, ?_⟩
    rw [hval]
    exact h
  · have harea : u32Mul true width height = .error .overflow := if_pos ⟨rfl, hge⟩
    rw [harea]
    rfl

/-! ## What comes back -/

/-- A packet declares the sizes that were written into it. -/
theorem wordAt_packet (width height : UInt32) (pixels : List UInt8) :
    wordAt (tagReferenceFrame :: (leBytes 4 width.toNat ++ leBytes 4 height.toNat ++ pixels))
        headerWidthOffset = width ∧
      wordAt (tagReferenceFrame :: (leBytes 4 width.toNat ++ leBytes 4 height.toNat ++ pixels))
        headerHeightOffset = height := by
  have hread : ∀ w : UInt32, UInt32.ofNat (ofLE (leBytes 4 w.toNat)) = w := by
    intro w
    rw [ofLE_leBytes, Nat.mod_eq_of_lt (by exact w.toNat_lt), UInt32.ofNat_toNat]
  unfold wordAt
  constructor
  · rw [headerWidthOffset, List.drop_succ_cons, List.drop_zero, List.append_assoc,
      List.take_left' (length_leBytes 4 _), hread]
  · rw [headerHeightOffset, List.drop_succ_cons, List.append_assoc,
      List.drop_left' (length_leBytes 4 _), List.take_left' (length_leBytes 4 _), hread]

/-- A frame that the encoder accepts comes back from the packet. -/
theorem decode_encode_reference {checks : Bool} {e e' : GearAReferenceEncoder} {frame : CameraFrame}
    {packet : List UInt8} (h : e.encodeReferenceFrame checks frame = .ok (.ok packet, e')) :
    decodeReferenceFrame checks packet = .ok (.ok ⟨frame.pixels, frame.width, frame.height⟩) := by
  unfold GearAReferenceEncoder.encodeReferenceFrame at h
  obtain ⟨valid, hvalid, h⟩ := bind_eq_ok.mp h
  cases valid with
  | false => cases h
  | true =>
    obtain ⟨n, hn, h⟩ := bind_eq_ok.mp h
    obtain rfl : _ = packet := by
      injection h with h
      injection h with h
      injection h
    unfold CameraFrame.isValid at hvalid
    split at hvalid
    · next hpos =>
      rw [hn, ok_bind] at hvalid
      -- The encoder has checked that there are as many pixels as the sides say.
      have hlen : frame.pixels.length = n.toNat := by
        injection hvalid with hvalid
        exact of_decide_eq_true hvalid
      obtain ⟨hwidth, hheight⟩ := wordAt_packet frame.width frame.height frame.pixels
      have hpacket : (tagReferenceFrame :: (leBytes 4 frame.width.toNat
          ++ leBytes 4 frame.height.toNat ++ frame.pixels)).length = headerLen + n.toNat := by
        simp only [List.length_cons, List.length_append, length_leBytes, hlen, headerLen]
        omega
      have hzero : ¬ (frame.width = 0 ∨ frame.height = 0) := by
        rintro (hzero | hzero) <;> rw [hzero] at hpos
        · exact absurd hpos.1 (by decide)
        · exact absurd hpos.2 (by decide)
      -- Behind the header stand the pixels.
      have hpixels : (tagReferenceFrame :: (leBytes 4 frame.width.toNat
          ++ leBytes 4 frame.height.toNat ++ frame.pixels)).drop headerLen = frame.pixels := by
        rw [headerLen, List.drop_succ_cons]
        exact List.drop_left' (by simp)
      unfold decodeReferenceFrame
      rw [if_neg (by rw [hpacket]; omega), if_neg (by simp)]
      dsimp only
      rw [hwidth, hheight, if_neg hzero, hn, ok_bind, if_neg (by rw [hpacket]; omega), hpixels]
      rfl
    · cases hvalid

/-! ## Packets from the network -/

/-- The arithmetic of `decode` is true on a packet: no product is too large, and an accepted frame
has three bytes for each of its pixels, so that every pixel coordinate can be looked up. -/
structure SoundOn (data : List UInt8) : Prop where
  /-- No product wraps. -/
  no_wrap : decodeReferenceFrame true data ≠ .error .overflow
  /-- The pixels are as many as the width and the height say. -/
  length_eq : ∀ checks frame, decodeReferenceFrame checks data = .ok (.ok frame) →
    frame.pixels.length = frame.width.toNat * frame.height.toNat * 3
  /-- Every channel of every pixel is in the buffer. -/
  index_lt : ∀ checks frame, decodeReferenceFrame checks data = .ok (.ok frame) →
    ∀ x < frame.width.toNat, ∀ y < frame.height.toNat, ∀ channel < 3,
      (y * frame.width.toNat + x) * 3 + channel < frame.pixels.length

/-- The packet is rejected for its length, its tag or a zero, or its product fits in 32 bits. -/
def ProductFits (data : List UInt8) : Prop :=
  headerLen ≤ data.length → data.headD 0 = tagReferenceFrame →
    wordAt data headerWidthOffset ≠ 0 → wordAt data headerHeightOffset ≠ 0 →
      (wordAt data headerWidthOffset).toNat * (wordAt data headerHeightOffset).toNat * 3 < 2 ^ 32

/-- A packet that declares too large a product overflows. -/
theorem decode_of_not_fits {data : List UInt8} (h : ¬ ProductFits data) :
    decodeReferenceFrame true data = .error .overflow := by
  unfold ProductFits at h
  push Not at h
  obtain ⟨hlen, htag, hwidth, hheight, hlarge⟩ := h
  unfold decodeReferenceFrame
  rw [if_neg (Nat.not_lt.mpr hlen), if_neg (not_not.mpr htag)]
  dsimp only
  rw [if_neg (not_or.mpr ⟨hwidth, hheight⟩), frameBytes_of_ge hlarge]
  rfl

/-- On other packets, all builds do the same, and an accepted frame has the right length. -/
theorem decode_of_fits {data : List UInt8} (h : ProductFits data) (checks : Bool) :
    ∃ r, decodeReferenceFrame checks data = .ok r ∧ ∀ frame, r = .ok frame →
      frame.pixels.length = frame.width.toNat * frame.height.toNat * 3 := by
  unfold decodeReferenceFrame
  split
  · exact ⟨_, rfl, nofun⟩
  · next hlen =>
    split
    · exact ⟨_, rfl, nofun⟩
    · next htag =>
      dsimp only
      split
      · exact ⟨_, rfl, nofun⟩
      · next hzero =>
        rw [not_or] at hzero
        -- The product does not wrap, so the check of the length is the true one.
        obtain ⟨n, hn, hval⟩ := frameBytes_of_lt checks
          (h (Nat.not_lt.mp hlen) (not_not.mp htag) hzero.1 hzero.2)
        rw [hn, ok_bind]
        split
        · exact ⟨_, rfl, nofun⟩
        · next hactual =>
          refine ⟨_, rfl, ?_⟩
          rintro frame heq
          obtain rfl := Except.ok.inj heq
          rw [List.length_drop, not_not.mp hactual, hval]

/-- A coordinate inside the dimensions is inside a buffer of their product. -/
theorem pixel_index_lt {x y w h channel : ℕ} (hx : x < w) (hy : y < h) (hchannel : channel < 3) :
    (y * w + x) * 3 + channel < w * h * 3 := by
  have hrow : (y + 1) * w ≤ h * w := Nat.mul_le_mul_right w hy
  rw [Nat.add_mul, Nat.one_mul, Nat.mul_comm h w] at hrow
  omega

/-- Accepted camera frames come back in every build, and the arithmetic of `decode` is true on a
packet exactly when the packet's product fits or is not computed. -/
theorem soundOn_iff (data : List UInt8) :
    (∀ checks (e e' : GearAReferenceEncoder) frame packet,
      e.encodeReferenceFrame checks frame = .ok (.ok packet, e') →
        decodeReferenceFrame checks packet
          = .ok (.ok ⟨frame.pixels, frame.width, frame.height⟩)) ∧
    (SoundOn data ↔ ProductFits data) := by
  refine ⟨fun checks e e' frame packet => decode_encode_reference, ?_⟩
  constructor
  · intro hsound
    by_contra hfits
    exact hsound.no_wrap (decode_of_not_fits hfits)
  · intro hfits
    -- What is accepted has all its pixels, so no access leaves them.
    have hlength : ∀ checks frame, decodeReferenceFrame checks data = .ok (.ok frame) →
        frame.pixels.length = frame.width.toNat * frame.height.toNat * 3 := by
      intro checks frame hframe
      obtain ⟨r, hr, hlength⟩ := decode_of_fits hfits checks
      exact hlength frame (Except.ok.inj (hr.symm.trans hframe))
    refine ⟨?_, hlength, ?_⟩
    · obtain ⟨r, hr, -⟩ := decode_of_fits hfits true
      rw [hr]
      nofun
    · intro checks frame hframe x hx y hy channel hchannel
      rw [hlength checks frame hframe]
      exact pixel_index_lt hx hy hchannel

/-- A header of `2^16` by `2^16` pixels with nothing behind it is accepted where products wrap. -/
theorem not_soundOn :
    decodeReferenceFrame false [0x52, 0, 0, 1, 0, 0, 0, 1, 0] = .ok (.ok ⟨[], 65536, 65536⟩) ∧
      ¬ SoundOn [0x52, 0, 0, 1, 0, 0, 0, 1, 0] := by
  have haccepted : decodeReferenceFrame false [0x52, 0, 0, 1, 0, 0, 0, 1, 0]
      = .ok (.ok ⟨[], 65536, 65536⟩) := by decide
  refine ⟨haccepted, fun h => ?_⟩
  exact absurd (h.length_eq _ _ haccepted) (by decide)

end LowBand.Platform
