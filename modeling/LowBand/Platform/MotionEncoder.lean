import LowBand.Lib.Run
import LowBand.Platform.MotionBits
import Mathlib.Data.List.FinRange

/-!
# The motion stream

The entropy coder for motion latents of `core/platform/src/motion_encoder.rs`, from the quantised
values on: a keyframe carries the values as 16-bit words, and the frames after it carry the
differences from the frame before.

All values of a frame are written and read in one order (`scanOrder`), so each codec is a loop over
that order and is described value by value. A keyframe decodes to the clamped values
(`decodeKeyframe_encodeKeyframe`). The differences are read back when all are less than `2^30` in
magnitude, and the frame is refused otherwise (`decodeDelta_small`, `decodeDelta_long`).

The encoder goes on from the values themselves, not from what it sent. So the two sides stay in step
(`InSync`) as long as no value is clamped and no frame refused, and a frame that breaks this is not
decoded to its values (`step_exact_iff`). `stream_exact_iff` says this for whole streams.
-/

namespace LowBand.Platform.Motion

open Lib

/-! ## Quantised values -/

/-- The scalars of a frame: twenty keypoints, the pose, and 64 expression latents. -/
inductive Scalar
  | kpX (i : Fin 20)
  | kpY (i : Fin 20)
  | kpZ (i : Fin 20)
  | yaw
  | pitch
  | roll
  | tx
  | ty
  | tz
  | expr (i : Fin 64)
  deriving DecidableEq, Repr

/-- The quantised values of a frame, each an `i32`. -/
abbrev QuantisedState := Scalar → BitVec 32

/-- The order in which the codecs go through the scalars. -/
def scanOrder : List Scalar :=
  (List.finRange 20).flatMap (fun i => [.kpX i, .kpY i, .kpZ i]) ++
    [.yaw, .pitch, .roll, .tx, .ty, .tz] ++ (List.finRange 64).map .expr

/-- The codecs leave out no scalar. -/
theorem mem_scanOrder (k : Scalar) : k ∈ scanOrder := by
  unfold scanOrder
  cases k <;> simp

/-- There are 130 scalars. -/
theorem length_scanOrder : scanOrder.length = 130 := by
  simp [scanOrder]

/-- The bytes of a keyframe after its tag, `KEYFRAME_PAYLOAD_LEN`. -/
def keyframePayloadLen : ℕ := 20 * 3 * 2 + 6 * 2 + 64 * 2

/-- `TAG_KEYFRAME`. -/
def tagKeyframe : UInt8 := 0x01

/-- `TAG_DELTA`. -/
def tagDelta : UInt8 := 0x00

/-- All values fit in 16 bits. -/
def Fits16 (q : QuantisedState) : Prop := ∀ k, -2 ^ 15 ≤ (q k).toInt ∧ (q k).toInt < 2 ^ 15

/-! ## The codecs -/

/-- `x + y` on `i32`. -/
def addI32 (x y : BitVec 32) : Except DecodeFailure (BitVec 32) :=
  if x.saddOverflow y then .error .overflow else .ok (x + y)

/-- Write the difference of one scalar. -/
def encodeScalar (prev curr : QuantisedState) (w : BitWriter) (k : Scalar) :
    Except Overflow BitWriter := do
  let d ← subI32 (curr k) (prev k)
  writeExpGolomb w (zigzagEncode d)

/-- Write the differences of a frame from the frame before. -/
def encodeDelta (w : BitWriter) (prev curr : QuantisedState) : Except Overflow BitWriter :=
  scanOrder.foldlM (encodeScalar prev curr) w

/-- Read the difference of one scalar. -/
def decodeScalar (prev curr : QuantisedState) (k : Scalar) : BitDecoder QuantisedState := do
  let n ← readExpGolomb
  let v ← addI32 (prev k) (zigzagDecode n)
  return Function.update curr k v

/-- Read the differences of a frame. -/
def decodeDelta (prev : QuantisedState) : BitDecoder QuantisedState :=
  scanOrder.foldlM (decodeScalar prev) prev

/-- The keyframe of a frame. -/
def encodeKeyframe (state : QuantisedState) : List UInt8 :=
  tagKeyframe :: scanOrder.flatMap fun k => leBytesI16 (clampI16 (state k).toInt)

/-- The values of a keyframe, read at every second byte. -/
def decodeKeyframe (payload : List UInt8) : Except DecodeFailure QuantisedState :=
  if payload.length < keyframePayloadLen then .error (.rejected .truncated)
  else
    let (s, _) := scanOrder.foldl
      (fun (s, off) k =>
        (Function.update s k (BitVec.ofInt 32 (ofLEI16 ((payload.drop off).take 2))), off + 2))
      ((fun _ => 0 : QuantisedState), 0)
    .ok s

/-- The encoder: the last frame's values. -/
structure MotionEncoder where
  prev : Option QuantisedState

namespace MotionEncoder

/-- An encoder whose first frame is a keyframe. -/
def new : MotionEncoder := ⟨none⟩

/-- The data of a frame: the differences from the frame before, or a keyframe. -/
def encodeFrame (e : MotionEncoder) (curr : QuantisedState) : Except Overflow (List UInt8) :=
  match e.prev with
  | some prev => do
    let w ← encodeDelta .new prev curr
    return tagDelta :: w.finish
  | none => return encodeKeyframe curr

/-- Encode the values of a frame. -/
def encode (e : MotionEncoder) (curr : QuantisedState) :
    Except Overflow (List UInt8 × MotionEncoder) := do
  let out ← e.encodeFrame curr
  return (out, ⟨some curr⟩)

/-- The next frame is a keyframe. -/
def reset (_ : MotionEncoder) : MotionEncoder := ⟨none⟩

end MotionEncoder

/-- The decoder: the last frame's values. -/
structure MotionDecoder where
  prev : Option QuantisedState

namespace MotionDecoder

/-- A decoder that waits for a keyframe. -/
def new : MotionDecoder := ⟨none⟩

/-- The values of a frame. -/
def decodeState (d : MotionDecoder) (data : List UInt8) : Except DecodeFailure QuantisedState :=
  match data with
  | [] => .error (.rejected .emptyPayload)
  | tag :: payload =>
    if tag = tagKeyframe then decodeKeyframe payload
    else if tag = tagDelta then
      match d.prev with
      | none => .error (.rejected .missingKeyframe)
      | some prev => Prod.fst <$> decodeDelta prev (.new payload)
    else .error (.rejected (.unknownTag tag))

/-- Decode a frame. Only a decoded frame changes the decoder. -/
def decode (d : MotionDecoder) (data : List UInt8) :
    Except DecodeFailure QuantisedState × MotionDecoder :=
  match d.decodeState data with
  | .error e => (.error e, d)
  | .ok state => (.ok state, ⟨some state⟩)

end MotionDecoder

/-! ## Keyframes -/

/-- The values stored for the scalars of a list. -/
def storeAll (f : Scalar → BitVec 32) (ks : List Scalar) (s : QuantisedState) : QuantisedState :=
  fun k => if k ∈ ks then f k else s k

/-- One scalar and then the others. -/
theorem storeAll_cons (f : Scalar → BitVec 32) (k : Scalar) (ks : List Scalar)
    (s : QuantisedState) :
    storeAll f ks (Function.update s k (f k)) = storeAll f (k :: ks) s := by
  unfold storeAll
  funext k'
  by_cases heq : k' = k
  · subst heq
    simp
  · simp [heq]

/-- All scalars have been stored after the scan. -/
theorem storeAll_scanOrder (f : Scalar → BitVec 32) (s : QuantisedState) :
    storeAll f scanOrder s = f := by
  unfold storeAll
  funext k
  rw [if_pos (mem_scanOrder k)]

/-- The words of a list of scalars are read one after another. -/
theorem foldl_readWords {payload rest : List UInt8} {val : Scalar → ℤ}
    (hval : ∀ k, -2 ^ 15 ≤ val k ∧ val k < 2 ^ 15) {ks : List Scalar} {off : ℕ}
    (h : payload.drop off = ks.flatMap (fun k => leBytesI16 (val k)) ++ rest)
    (s : QuantisedState) :
    (ks.foldl
      (fun (s, off) k =>
        (Function.update s k (BitVec.ofInt 32 (ofLEI16 ((payload.drop off).take 2))), off + 2))
      (s, off)).1 = storeAll (fun k => BitVec.ofInt 32 (val k)) ks s := by
  -- By induction on the scalars, two bytes each.
  induction ks generalizing off s with
  | nil => rfl
  | cons k ks ih =>
    rw [List.flatMap_cons, List.append_assoc] at h
    have hword : (payload.drop off).take 2 = leBytesI16 (val k) := by
      rw [h]
      exact List.take_left' (length_leBytesI16 _)
    have hnext : payload.drop (off + 2) = ks.flatMap (fun k => leBytesI16 (val k)) ++ rest := by
      rw [← List.drop_drop, h]
      exact List.drop_left' (length_leBytesI16 _)
    rw [List.foldl_cons]
    dsimp only
    rw [hword, ofLEI16_leBytesI16 (hval k).1 (hval k).2, ih hnext, storeAll_cons]

/-- A keyframe decodes to the clamped values. -/
theorem decodeKeyframe_encodeKeyframe (q : QuantisedState) :
    decodeKeyframe (scanOrder.flatMap fun k => leBytesI16 (clampI16 (q k).toInt))
      = .ok fun k => BitVec.ofInt 32 (clampI16 (q k).toInt) := by
  have hlen : (scanOrder.flatMap fun k => leBytesI16 (clampI16 (q k).toInt)).length
      = keyframePayloadLen := by
    simp only [List.length_flatMap, length_leBytesI16, List.map_const', List.sum_replicate_nat,
      length_scanOrder]
    rfl
  unfold decodeKeyframe
  rw [if_neg (by rw [hlen]; exact Nat.lt_irrefl _)]
  have hdrop : (scanOrder.flatMap fun k => leBytesI16 (clampI16 (q k).toInt)).drop 0
      = (scanOrder.flatMap fun k => leBytesI16 (clampI16 (q k).toInt)) ++ [] := by simp
  have hread := foldl_readWords (fun k => clampI16_mem (q k).toInt) hdrop fun _ => 0
  rw [storeAll_scanOrder] at hread
  exact congrArg Except.ok hread

/-- The clamped values are the values when these fit in 16 bits. -/
theorem clamped_eq_iff (q : QuantisedState) :
    (fun k => BitVec.ofInt 32 (clampI16 (q k).toInt)) = q ↔ Fits16 q := by
  rw [funext_iff]
  refine forall_congr' fun k => ?_
  rw [← clampI16_eq_self_iff]
  constructor
  · intro h
    have hmem := clampI16_mem (q k).toInt
    have hint := congrArg BitVec.toInt h
    rwa [BitVec.toInt_ofInt, Int.bmod_eq_of_le (by omega) (by omega)] at hint
  · intro h
    rw [h, BitVec.ofInt_toInt]

/-! ## Delta frames -/

/-- The bits of the differences of some scalars. -/
def deltaCode (prev curr : QuantisedState) (ks : List Scalar) : List Bool :=
  ks.flatMap fun k => expGolomb (zigzagEncode (curr k - prev k))

/-- The difference of a scalar between two frames is less than `2^30` in magnitude. -/
def SmallDelta (prev curr : QuantisedState) (k : Scalar) : Prop :=
  -2 ^ 30 < (curr k).toInt - (prev k).toInt ∧ (curr k).toInt - (prev k).toInt < 2 ^ 30

/-- A subtraction that does not overflow is exact. -/
theorem subI32_eq_ok {x y d : BitVec 32} (h : subI32 x y = .ok d) :
    d = x - y ∧ d.toInt = x.toInt - y.toInt := by
  unfold subI32 at h
  split at h
  · cases h
  · next hno =>
    obtain rfl := Except.ok.inj h
    exact ⟨rfl, BitVec.toInt_sub_of_not_ssubOverflow hno⟩

/-- Small differences do not overflow. -/
theorem subI32_of_small {x y : BitVec 32} (h : -2 ^ 30 < x.toInt - y.toInt)
    (h' : x.toInt - y.toInt < 2 ^ 30) : subI32 x y = .ok (x - y) := by
  refine if_neg ?_
  unfold BitVec.ssubOverflow
  simp only [Bool.or_eq_true, decide_eq_true_eq]
  omega

/-- The exact difference added to the old value gives the new one. -/
theorem addI32_sub {x y : BitVec 32} (h : (x - y).toInt = x.toInt - y.toInt) :
    addI32 y (x - y) = .ok x := by
  have hle := BitVec.le_toInt x
  have hlt := BitVec.toInt_lt (x := x)
  have hno : ¬ y.saddOverflow (x - y) = true := by
    unfold BitVec.saddOverflow
    simp only [Bool.or_eq_true, decide_eq_true_eq]
    omega
  unfold addI32
  rw [if_neg hno, BitVec.add_comm, BitVec.sub_add_cancel]

/-- What a writer holds after the differences of some scalars, when none overflows. -/
theorem foldlM_encode {prev curr : QuantisedState} {ks : List Scalar} {w w' : BitWriter}
    {bs : List Bool} (hw : w.Holds bs)
    (h : ks.foldlM (encodeScalar prev curr) w = .ok w') :
    w'.Holds (bs ++ deltaCode prev curr ks) ∧
      ∀ k ∈ ks, (curr k - prev k).toInt = (curr k).toInt - (prev k).toInt := by
  -- By induction on the scalars: the first that overflows stops the encoder.
  induction ks generalizing w bs with
  | nil =>
    obtain rfl := Except.ok.inj h
    exact ⟨by simpa [deltaCode] using hw, by simp⟩
  | cons k ks ih =>
    rw [List.foldlM_cons, bind_eq_ok] at h
    obtain ⟨w₁, hfirst, hrest⟩ := h
    obtain ⟨d, hsub, hwrite⟩ := bind_eq_ok.mp hfirst
    obtain ⟨rfl, hint⟩ := subI32_eq_ok hsub
    have hfit : zigzagEncode (curr k - prev k) + 1 < 2 ^ 32 := by
      by_contra hover
      rw [writeExpGolomb, if_neg hover] at hwrite
      cases hwrite
    obtain ⟨w₂, hok, hholds⟩ := writeExpGolomb_holds hw hfit
    obtain rfl : w₂ = w₁ := Except.ok.inj (hok.symm.trans hwrite)
    obtain ⟨hlast, hints⟩ := ih hholds hrest
    refine ⟨?_, List.forall_mem_cons.mpr ⟨hint, hints⟩⟩
    rwa [List.append_assoc] at hlast

/-- Small differences are written. -/
theorem foldlM_encode_ok {prev curr : QuantisedState} {ks : List Scalar} {w : BitWriter}
    {bs : List Bool} (hw : w.Holds bs) (hsmall : ∀ k ∈ ks, SmallDelta prev curr k) :
    ∃ w', ks.foldlM (encodeScalar prev curr) w = .ok w' := by
  induction ks generalizing w bs with
  | nil => exact ⟨w, rfl⟩
  | cons k ks ih =>
    obtain ⟨hk, hks⟩ := List.forall_mem_cons.mp hsmall
    have hsub := subI32_of_small hk.1 hk.2
    obtain ⟨-, hint⟩ := subI32_eq_ok hsub
    have hfit : zigzagEncode (curr k - prev k) + 1 < 2 ^ 31 := by
      rw [zigzagEncode_lt_iff, hint]
      exact hk
    obtain ⟨w₁, hok, hholds⟩ := writeExpGolomb_holds hw (hfit.trans (by decide))
    obtain ⟨w', hrest⟩ := ih hholds hks
    refine ⟨w', ?_⟩
    rw [List.foldlM_cons, encodeScalar, hsub, ok_bind, hok]
    exact hrest

/-- A scalar whose code was read gets its new value. -/
theorem decodeScalar_code {prev curr : QuantisedState} {k : Scalar} {r r' : BitReader}
    (hread : readExpGolomb r = .ok (zigzagEncode (curr k - prev k), r'))
    (hint : (curr k - prev k).toInt = (curr k).toInt - (prev k).toInt) (s : QuantisedState) :
    decodeScalar prev s k r = .ok (Function.update s k (curr k), r') := by
  unfold decodeScalar
  rw [bitDecoder_bind hread, zigzagDecode_zigzagEncode, addI32_sub hint]
  rfl

/-- Small differences are read back. -/
theorem foldlM_decode {prev curr : QuantisedState} {ks : List Scalar} {r : BitReader}
    {bs : List Bool} (hr : r.Ahead (deltaCode prev curr ks ++ bs))
    (hint : ∀ k ∈ ks, (curr k - prev k).toInt = (curr k).toInt - (prev k).toInt)
    (hsmall : ∀ k ∈ ks, SmallDelta prev curr k) (s : QuantisedState) :
    ∃ r', ks.foldlM (decodeScalar prev) s r = .ok (storeAll curr ks s, r') := by
  induction ks generalizing r s with
  | nil => exact ⟨r, rfl⟩
  | cons k ks ih =>
    obtain ⟨hk, hks⟩ := List.forall_mem_cons.mp hsmall
    obtain ⟨hik, hiks⟩ := List.forall_mem_cons.mp hint
    have hfit : zigzagEncode (curr k - prev k) + 1 < 2 ^ 31 := by
      rw [zigzagEncode_lt_iff, hik]
      exact hk
    rw [deltaCode, List.flatMap_cons, List.append_assoc] at hr
    obtain ⟨r₁, hread, hrest⟩ := readExpGolomb_code hfit hr
    obtain ⟨r', hlast⟩ := ih hrest hiks hks (Function.update s k (curr k))
    refine ⟨r', ?_⟩
    rw [List.foldlM_cons, ← storeAll_cons, ← hlast]
    exact bitDecoder_bind (decodeScalar_code hread hik s)

/-- A difference that is not small makes the reader give up. -/
theorem foldlM_decode_long {prev curr : QuantisedState} {ks : List Scalar} {r : BitReader}
    {bs : List Bool} (hr : r.Ahead (deltaCode prev curr ks ++ bs))
    (hint : ∀ k ∈ ks, (curr k - prev k).toInt = (curr k).toInt - (prev k).toInt)
    (hlong : ¬ ∀ k ∈ ks, SmallDelta prev curr k) (s : QuantisedState) :
    ks.foldlM (decodeScalar prev) s r = .error (.rejected .truncated) := by
  -- By induction on the scalars: the first code that is too long stops the decoder.
  induction ks generalizing r s with
  | nil => exact absurd (by simp) hlong
  | cons k ks ih =>
    obtain ⟨hik, hiks⟩ := List.forall_mem_cons.mp hint
    rw [deltaCode, List.flatMap_cons, List.append_assoc] at hr
    have hfit : zigzagEncode (curr k - prev k) + 1 < 2 ^ 31 ↔ SmallDelta prev curr k := by
      rw [zigzagEncode_lt_iff, hik]
      rfl
    rw [List.foldlM_cons]
    by_cases hk : SmallDelta prev curr k
    · obtain ⟨r₁, hread, hrest⟩ := readExpGolomb_code (hfit.mpr hk) hr
      have hlong : ¬ ∀ k ∈ ks, SmallDelta prev curr k :=
        fun hks => hlong (List.forall_mem_cons.mpr ⟨hk, hks⟩)
      rw [← ih hrest hiks hlong (Function.update s k (curr k))]
      exact bitDecoder_bind (decodeScalar_code hread hik s)
    · have hread := readExpGolomb_long (Nat.not_lt.mp (mt hfit.mp hk)) hr
      exact bitDecoder_bind_error (bitDecoder_bind_error hread)

/-- The bits of a delta frame are ahead of its reader. -/
theorem encodeDelta_ahead {prev curr : QuantisedState} {w : BitWriter}
    (h : encodeDelta .new prev curr = .ok w) :
    (∃ pad, (BitReader.new w.finish).Ahead (deltaCode prev curr scanOrder ++ pad)) ∧
      ∀ k ∈ scanOrder, (curr k - prev k).toInt = (curr k).toInt - (prev k).toInt := by
  obtain ⟨hholds, hint⟩ := foldlM_encode BitWriter.holds_new h
  obtain ⟨pad, hbits⟩ := hholds.finish
  rw [List.nil_append] at hbits
  exact ⟨⟨pad, hbits ▸ BitReader.ahead_new w.finish⟩, hint⟩

/-- A delta frame with small differences decodes to its values. -/
theorem decodeDelta_small {prev curr : QuantisedState} {w : BitWriter}
    (h : encodeDelta .new prev curr = .ok w) (hsmall : ∀ k, SmallDelta prev curr k) :
    ∃ r', decodeDelta prev (.new w.finish) = .ok (curr, r') := by
  obtain ⟨⟨pad, hahead⟩, hint⟩ := encodeDelta_ahead h
  obtain ⟨r', hread⟩ := foldlM_decode hahead hint (fun k _ => hsmall k) prev
  exact ⟨r', by rw [decodeDelta, hread, storeAll_scanOrder]⟩

/-- A delta frame with another difference is refused. -/
theorem decodeDelta_long {prev curr : QuantisedState} {w : BitWriter}
    (h : encodeDelta .new prev curr = .ok w) (hlong : ¬ ∀ k, SmallDelta prev curr k) :
    decodeDelta prev (.new w.finish) = .error (.rejected .truncated) := by
  obtain ⟨⟨pad, hahead⟩, hint⟩ := encodeDelta_ahead h
  exact foldlM_decode_long hahead hint
    (fun hall => hlong fun k => hall k (mem_scanOrder k)) prev

/-! ## Streams -/

/-- What happens to a stream: a frame is encoded and decoded, or the encoder is reset. -/
inductive MotionEvent
  | frame (q : QuantisedState)
  | reset

/-- The two sides of a stream. -/
structure MotionStream where
  encoder : MotionEncoder
  decoder : MotionDecoder

/-- A frame of a stream: the values encoded, and those decoded, if the frame was encoded and not
refused. -/
structure SentFrame where
  values : QuantisedState
  decoded : Option QuantisedState

namespace MotionStream

/-- A stream before its first frame. -/
def new : MotionStream := ⟨.new, .new⟩

/-- One event of a stream. -/
def step : Machine MotionStream MotionEvent SentFrame := fun s event =>
  match event with
  | .reset => ([], { s with encoder := s.encoder.reset })
  | .frame q =>
    match s.encoder.encode q with
    | .error _ => ([⟨q, none⟩], s)
    | .ok (data, encoder) =>
      let (result, decoder) := s.decoder.decode data
      ([⟨q, result.toOption⟩], ⟨encoder, decoder⟩)

/-- Every frame whose values fit in 16 bits is decoded to them. -/
def NoDrift (es : List MotionEvent) : Prop :=
  ∀ f ∈ step.emitted new es, Fits16 f.values → f.decoded = some f.values

/-- Every frame is decoded to its values. -/
def Exact (s : MotionStream) (es : List MotionEvent) : Prop :=
  ∀ f ∈ step.emitted s es, f.decoded = some f.values

/-- The condition on a frame: a keyframe has values that fit in 16 bits, and another frame differs
from the one before by less than `2^30` in every value. -/
def Codable (s : MotionStream) : MotionEvent → Prop
  | .reset => True
  | .frame q =>
    match s.encoder.prev with
    | none => Fits16 q
    | some prev => ∀ k, SmallDelta prev q k

/-- The decoder has the values from which the encoder goes on. -/
def InSync (s : MotionStream) : Prop :=
  ∀ prev, s.encoder.prev = some prev → s.decoder.prev = some prev

/-- A keyframe. -/
theorem step_keyframe {s : MotionStream} (h : s.encoder.prev = none) (q : QuantisedState) :
    step s (.frame q) =
      ([⟨q, some fun k => BitVec.ofInt 32 (clampI16 (q k).toInt)⟩],
        ⟨⟨some q⟩, ⟨some fun k => BitVec.ofInt 32 (clampI16 (q k).toInt)⟩⟩) := by
  have hencode : s.encoder.encode q = .ok (encodeKeyframe q, ⟨some q⟩) := by
    unfold MotionEncoder.encode MotionEncoder.encodeFrame
    rw [h]
    rfl
  have hdecode : s.decoder.decodeState (encodeKeyframe q)
      = .ok fun k => BitVec.ofInt 32 (clampI16 (q k).toInt) :=
    decodeKeyframe_encodeKeyframe q
  simp only [step, hencode, MotionDecoder.decode, hdecode]
  rfl

/-- A delta frame from a state in step: it is decoded to its values when all differences are small,
and lost otherwise. -/
theorem step_delta {s : MotionStream} {prev : QuantisedState} (henc : s.encoder.prev = some prev)
    (hdec : s.decoder.prev = some prev) (q : QuantisedState) :
    ((∀ k, SmallDelta prev q k) → step s (.frame q) = ([⟨q, some q⟩], ⟨⟨some q⟩, ⟨some q⟩⟩)) ∧
      ((¬ ∀ k, SmallDelta prev q k) → (step s (.frame q)).1 = [⟨q, none⟩]) := by
  -- With a previous frame both ends work on the differences.
  have hencode : s.encoder.encode q = encodeDelta .new prev q >>= fun w =>
      .ok (tagDelta :: w.finish, ⟨some q⟩) := by
    unfold MotionEncoder.encode MotionEncoder.encodeFrame
    rw [henc]
    cases hw : encodeDelta .new prev q with
    -- An encoder that refuses has met a difference that is not small.
    | error e => simp only [hw, bind, Except.bind]
    | ok w => simp only [hw, bind, Except.bind]; rfl
  have hdecode : ∀ payload, s.decoder.decodeState (tagDelta :: payload)
      = Prod.fst <$> decodeDelta prev (.new payload) := by
    intro payload
    unfold MotionDecoder.decodeState
    rw [hdec]
    rfl
  cases hw : encodeDelta .new prev q with
  | error e =>
    rw [hw] at hencode
    have hencode : s.encoder.encode q = .error e := hencode
    refine ⟨fun hsmall => ?_, fun _ => by simp only [step, hencode]⟩
    obtain ⟨w, hok⟩ : ∃ w, encodeDelta .new prev q = .ok w :=
      foldlM_encode_ok BitWriter.holds_new fun k _ => hsmall k
    rw [hw] at hok
    cases hok
  | ok w =>
    rw [hw, ok_bind] at hencode
    constructor
    · intro hsmall
      obtain ⟨r', hread⟩ := decodeDelta_small hw hsmall
      simp only [step, hencode, MotionDecoder.decode, hdecode, hread]
      rfl
    · intro hlong
      have hread := decodeDelta_long hw hlong
      simp only [step, hencode, MotionDecoder.decode, hdecode, hread]
      rfl

/-- From a state in step, a frame is decoded to its values exactly when it meets the condition, and
then the two sides are in step again. -/
theorem step_exact_iff {s : MotionStream} (h : s.InSync) (e : MotionEvent) :
    ((∀ f ∈ (step s e).1, f.decoded = some f.values) ↔ s.Codable e) ∧
      (s.Codable e → (step s e).2.InSync) := by
  cases e with
  | reset => exact ⟨iff_of_true (by simp [step]) trivial, fun _ _ hprev => nomatch hprev⟩
  | frame q =>
    cases hprev : s.encoder.prev with
    -- Without a previous frame the whole state is sent, clamped to sixteen bits.
    | none =>
      have hcodable : s.Codable (.frame q) = Fits16 q := by simp only [Codable, hprev]
      rw [step_keyframe hprev, hcodable, ← clamped_eq_iff]
      refine ⟨by simp, fun hfits prev hp => ?_⟩
      rw [← hp]
      exact congrArg some hfits
    | some prev =>
      have hcodable : s.Codable (.frame q) = ∀ k, SmallDelta prev q k := by
        simp only [Codable, hprev]
      obtain ⟨hsmall, hlong⟩ := step_delta hprev (h prev hprev) q
      rw [hcodable]
      by_cases hall : ∀ k, SmallDelta prev q k
      · rw [hsmall hall]
        exact ⟨iff_of_true (by simp) hall, fun _ _ hp => hp⟩
      · rw [hlong hall]
        exact ⟨iff_of_false (by simp) hall, fun hall' => absurd hall' hall⟩

/-- A stream in step is decoded exactly when every frame meets the condition. -/
theorem exact_iff {s : MotionStream} (h : s.InSync) (es : List MotionEvent) :
    s.Exact es ↔ Guarded (fun s e => (step s e).2) Codable s es := by
  induction es generalizing s with
  | nil => exact iff_of_true (by simp [Exact, Machine.emitted]) trivial
  | cons e es ih =>
    obtain ⟨hexact, hsync⟩ := step_exact_iff h e
    have hsplit : s.Exact (e :: es) ↔
        (∀ f ∈ (step s e).1, f.decoded = some f.values) ∧ (step s e).2.Exact es := by
      unfold Exact
      rw [Machine.emitted, List.forall_mem_append]
    rw [hsplit, hexact]
    exact and_congr_right fun hcod => ih (hsync hcod)

/-- For every stream of frames and resets: every frame is decoded to its values if and only if every
keyframe fits in 16 bits and every other frame is near the one before; in particular the stream then
does not drift. Whatever the data, a decoder that rejects it is left as it was. -/
theorem stream_exact_iff (es : List MotionEvent) :
    (new.Exact es ↔ Guarded (fun s e => (step s e).2) Codable new es) ∧
      (Guarded (fun s e => (step s e).2) Codable new es → NoDrift es) ∧
      ∀ (d : MotionDecoder) (data : List UInt8) (e : DecodeFailure),
        (d.decode data).1 = .error e → (d.decode data).2 = d := by
  have hiff : new.Exact es ↔ Guarded (fun s e => (step s e).2) Codable new es :=
    exact_iff (s := new) (fun prev hp => by cases hp) es
  refine ⟨hiff, fun hg f hf _ => hiff.mpr hg f hf, fun d data e h => ?_⟩
  unfold MotionDecoder.decode at h ⊢
  cases hstate : d.decodeState data with
  | error e' => rfl
  | ok state =>
    rw [hstate] at h
    cases h

/-- A frame of a stream is sent with its values. -/
theorem step_frame_values (s : MotionStream) (q : QuantisedState) :
    ∃ decoded, (step s (.frame q)).1 = [⟨q, decoded⟩] := by
  cases henc : s.encoder.encode q with
  | error e => exact ⟨none, by simp only [step, henc]⟩
  | ok out => exact ⟨(s.decoder.decode out.1).1.toOption, by simp only [step, henc]⟩

/-- A frame with a yaw of 40000 and zeros otherwise. -/
def turned : QuantisedState := Function.update (fun _ => 0) .yaw 40000

/-- A stream that starts with it and goes on with zeros: the second frame decodes to a yaw of
-7233. -/
theorem not_noDrift : ¬ NoDrift [.frame turned, .frame fun _ => 0] := by
  intro h
  have hyaw : ∀ f ∈ (step (step new (.frame turned)).2 (.frame fun _ => 0)).1,
      f.decoded.map (fun q => (q .yaw).toInt) = some (-7233) := by decide +kernel
  obtain ⟨decoded, hsent⟩ := step_frame_values (step new (.frame turned)).2 fun _ => 0
  have hmem : ⟨fun _ => 0, decoded⟩ ∈ step.emitted new [.frame turned, .frame fun _ => 0] := by
    refine List.mem_append_right _ (List.mem_append_left _ ?_)
    rw [hsent]
    exact List.mem_singleton_self _
  have hfits : Fits16 fun _ => 0 :=
    fun _ => (by decide : -2 ^ 15 ≤ (0#32).toInt ∧ (0#32).toInt < 2 ^ 15)
  have hzero : decoded = some fun _ => 0 := h _ hmem hfits
  have hbad := hyaw _ (hsent ▸ List.mem_singleton_self _)
  rw [hzero] at hbad
  exact absurd hbad (by decide)

end MotionStream

end LowBand.Platform.Motion
