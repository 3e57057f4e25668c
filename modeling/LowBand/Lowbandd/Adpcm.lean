import LowBand.Lib.Lockstep
import Mathlib.Data.Int.Order.Basic
import Mathlib.Tactic.IntervalCases

/-!
# The ADPCM codec

`adpcm.rs`: a sample of 16 bits is coded as four, the sign of its difference from a predictor and
the difference in quarters of a step. The encoder and the decoder each follow the predictor and the
step by code of their own, and have nothing but the codes in common.

`InStep.sample` is the one sample: whatever it is, the decoder moves to the state of the encoder.
Codes are packed two to a byte, and `decode_pack` says that the decoder, which is told how many
samples there are, sees the codes that the encoder made, so that a frame of any length leaves both
in one state (`InStep.frame`).
-/

namespace LowBand.Lowbandd

open Lib

/-- `STEP_TABLE`. -/
def stepTable : List ℤ :=
  [7, 8, 9, 10, 11, 12, 13, 14, 16, 17, 19, 21, 23, 25, 28, 31, 34, 37, 41, 45,
    50, 55, 60, 66, 73, 80, 88, 97, 107, 118, 130, 143, 157, 173, 190, 209, 230,
    253, 279, 307, 337, 371, 408, 449, 494, 544, 598, 658, 724, 796, 876, 963,
    1060, 1166, 1282, 1411, 1552, 1707, 1878, 2066, 2272, 2499, 2749, 3024, 3327,
    3660, 4026, 4428, 4871, 5358, 5894, 6484, 7132, 7845, 8630, 9493, 10442,
    11487, 12635, 13899, 15289, 16818, 18500, 20350, 22385, 24623, 27086, 29794,
    32767]

/-- `INDEX_TABLE`. -/
def indexTable : List ℤ := [-1, -1, -1, -1, 2, 4, 6, 8, -1, -1, -1, -1, 2, 4, 6, 8]

/-- `clamp_index`. -/
def clampIndex (i : ℤ) : ℤ := max 0 (min i 88)

/-- `clamp_sample`. -/
def clampSample (s : ℤ) : ℤ := max (-32768) (min s 32767)

/-- The step at an index. The source panics at an index outside of the table. -/
def stepAt (index : ℤ) : ℤ := stepTable.getD index.toNat 0

/-- The index after a code. -/
def nextIndex (index : ℤ) (code : UInt8) : ℤ := clampIndex (index + indexTable.getD code.toNat 0)

/-- `AdpcmEncoder`. -/
structure AdpcmEncoder where
  /-- The predicted sample. -/
  predictor : ℤ
  /-- The index of the step. -/
  index : ℤ
deriving DecidableEq

/-- `AdpcmDecoder`. -/
structure AdpcmDecoder where
  /-- The predicted sample. -/
  predictor : ℤ
  /-- The index of the step. -/
  index : ℤ
deriving DecidableEq

namespace AdpcmEncoder

/-- `AdpcmEncoder::new`. -/
def new : AdpcmEncoder := ⟨0, 0⟩

/-- One comparison of `encode_sample`, of the code so far, the rest of the difference and the change
of the predictor: a part `s` of the step that fits the rest is taken, and its bit is set. -/
def compare (bit : UInt8) (s : ℤ) (acc : UInt8 × ℤ × ℤ) : UInt8 × ℤ × ℤ :=
  let (delta, diff, vpdiff) := acc
  if diff ≥ s then (delta ||| bit, diff - s, vpdiff + s) else (delta, diff, vpdiff)

/-- `encode_sample`. -/
def encodeSample (e : AdpcmEncoder) (sample : ℤ) : UInt8 × AdpcmEncoder :=
  let step := stepAt e.index
  let diff := sample - e.predictor
  let sign : UInt8 := if diff < 0 then 8 else 0
  let diff := if diff < 0 then -diff else diff
  let (delta, _, vpdiff) := compare 1 (step >>> (1 : ℕ) >>> (1 : ℕ))
    (compare 2 (step >>> (1 : ℕ)) (compare 4 step (0, diff, step >>> (3 : ℕ))))
  let predictor :=
    if sign ≠ 0 then clampSample (e.predictor - vpdiff) else clampSample (e.predictor + vpdiff)
  let code := delta ||| sign
  (code, ⟨predictor, nextIndex e.index code⟩)

/-- One sample of `encode`: its code waits for a second one, which fills the byte. -/
def encodeStep (st : AdpcmEncoder × Option UInt8 × List UInt8) (sample : Int16) :
    AdpcmEncoder × Option UInt8 × List UInt8 :=
  let (e, pending, out) := st
  let (code, e) := e.encodeSample sample.toInt
  match pending with
  | none => (e, some code, out)
  | some low => (e, none, out ++ [low ||| code <<< 4])

/-- The end of `encode`: a code that still waits gets a byte of its own. -/
def flush (st : AdpcmEncoder × Option UInt8 × List UInt8) : List UInt8 × AdpcmEncoder :=
  let (e, pending, out) := st
  (out ++ pending.toList, e)

/-- `AdpcmEncoder::encode`. -/
def encode (e : AdpcmEncoder) (pcm : List Int16) : List UInt8 × AdpcmEncoder :=
  flush (pcm.foldl encodeStep (e, none, []))

end AdpcmEncoder

namespace AdpcmDecoder

/-- `AdpcmDecoder::new`. -/
def new : AdpcmDecoder := ⟨0, 0⟩

/-- `decode_code`. -/
def decodeCode (d : AdpcmDecoder) (code : UInt8) : Int16 × AdpcmDecoder :=
  let step := stepAt d.index
  let vpdiff := step >>> (3 : ℕ)
  let vpdiff := if code &&& 4 ≠ 0 then vpdiff + step else vpdiff
  let vpdiff := if code &&& 2 ≠ 0 then vpdiff + step >>> (1 : ℕ) else vpdiff
  let vpdiff := if code &&& 1 ≠ 0 then vpdiff + step >>> (2 : ℕ) else vpdiff
  let predictor :=
    if code &&& 8 ≠ 0 then clampSample (d.predictor - vpdiff)
    else clampSample (d.predictor + vpdiff)
  (.ofInt predictor, ⟨predictor, nextIndex d.index code⟩)

/-- A code is decoded when samples are still missing. -/
def push (sampleCount : ℕ) (st : List Int16 × AdpcmDecoder) (code : UInt8) :
    List Int16 × AdpcmDecoder :=
  if st.1.length < sampleCount then
    (st.1 ++ [(st.2.decodeCode code).1], (st.2.decodeCode code).2)
  else st

/-- `AdpcmDecoder::decode`. -/
def decode (d : AdpcmDecoder) (data : List UInt8) (sampleCount : ℕ) :
    List Int16 × AdpcmDecoder :=
  data.foldl (fun st byte => push sampleCount (push sampleCount st (byte &&& 0x0F)) (byte >>> 4))
    ([], d)

end AdpcmDecoder

/-! ## One sample -/

/-- The two sides are in one state, whose index lies in the step table and whose predictor is a
sample of 16 bits. -/
structure InStep (e : AdpcmEncoder) (d : AdpcmDecoder) : Prop where
  /-- They predict the same sample. -/
  predictor_eq : d.predictor = e.predictor
  /-- They use the same step. -/
  index_eq : d.index = e.index
  /-- The index is not negative. -/
  index_nonneg : 0 ≤ e.index
  /-- The index lies in the table. -/
  index_lt : e.index < stepTable.length
  /-- The predictor is not below the smallest sample. -/
  le_predictor : -2 ^ 15 ≤ e.predictor
  /-- The predictor is not above the largest sample. -/
  predictor_lt : e.predictor < 2 ^ 15

/-- New codecs are in step. -/
theorem InStep.new : InStep .new .new := by
  constructor <;> decide

/-- The next index is in the step table. -/
theorem nextIndex_mem (index : ℤ) (code : UInt8) :
    0 ≤ nextIndex index code ∧ nextIndex index code < stepTable.length := by
  have hlen : (stepTable.length : ℤ) = 89 := rfl
  unfold nextIndex clampIndex
  omega

/-- A clamped sample has 16 bits. -/
theorem clampSample_mem (s : ℤ) : -2 ^ 15 ≤ clampSample s ∧ clampSample s < 2 ^ 15 := by
  unfold clampSample
  omega

/-- A code: its sign and the quarters of the step that it adds. -/
def codeOf (sign whole half quarter : Bool) : UInt8 :=
  (bif whole then 4 else 0) ||| (bif half then 2 else 0) ||| (bif quarter then 1 else 0) |||
    (bif sign then 8 else 0)

/-- The predictor after a code. -/
def predicted (predictor step : ℤ) (sign whole half quarter : Bool) : ℤ :=
  let vpdiff := step >>> (3 : ℕ) + (bif whole then step else 0) +
    (bif half then step >>> (1 : ℕ) else 0) + (bif quarter then step >>> (2 : ℕ) else 0)
  clampSample (bif sign then predictor - vpdiff else predictor + vpdiff)

/-- A comparison sets a bit and changes the predictor, both or neither. -/
theorem compare_spec (bit : UInt8) (s : ℤ) (acc : UInt8 × ℤ × ℤ) :
    ∃ (taken : Bool) (rest : ℤ), AdpcmEncoder.compare bit s acc =
      (acc.1 ||| (bif taken then bit else 0), rest, acc.2.2 + bif taken then s else 0) := by
  unfold AdpcmEncoder.compare
  dsimp only
  split
  · exact ⟨true, acc.2.1 - s, rfl⟩
  · exact ⟨false, acc.2.1, by simp⟩

/-- The encoder makes a code and moves the predictor by what the code says. -/
theorem encodeSample_spec (e : AdpcmEncoder) (sample : ℤ) :
    ∃ sign whole half quarter : Bool,
      e.encodeSample sample = (codeOf sign whole half quarter,
        ⟨predicted e.predictor (stepAt e.index) sign whole half quarter,
          nextIndex e.index (codeOf sign whole half quarter)⟩) := by
  obtain ⟨whole, rest₁, hwhole⟩ := compare_spec 4 (stepAt e.index)
    (0, if sample - e.predictor < 0 then -(sample - e.predictor) else sample - e.predictor,
      stepAt e.index >>> (3 : ℕ))
  obtain ⟨half, rest₂, hhalf⟩ := compare_spec 2 (stepAt e.index >>> (1 : ℕ))
    (0 ||| (bif whole then 4 else 0), rest₁,
      stepAt e.index >>> (3 : ℕ) + bif whole then stepAt e.index else 0)
  obtain ⟨quarter, rest₃, hquarter⟩ := compare_spec 1 (stepAt e.index >>> (1 : ℕ) >>> (1 : ℕ))
    (0 ||| (bif whole then 4 else 0) ||| (bif half then 2 else 0), rest₂,
      stepAt e.index >>> (3 : ℕ) + (bif whole then stepAt e.index else 0) +
        bif half then stepAt e.index >>> (1 : ℕ) else 0)
  refine ⟨decide (sample - e.predictor < 0), whole, half, quarter, ?_⟩
  simp only [AdpcmEncoder.encodeSample, hwhole, hhalf, hquarter]
  -- The quarter step is the half of the half step.
  rw [← Int.shiftRight_add]
  by_cases hsign : sample - e.predictor < 0
  · simp [hsign, codeOf, predicted]
  · simp [hsign, codeOf, predicted]

/-- The bits of a code. -/
theorem codeOf_and : ∀ sign whole half quarter : Bool,
    (codeOf sign whole half quarter &&& 8 ≠ 0 ↔ sign = true) ∧
    (codeOf sign whole half quarter &&& 4 ≠ 0 ↔ whole = true) ∧
    (codeOf sign whole half quarter &&& 2 ≠ 0 ↔ half = true) ∧
    (codeOf sign whole half quarter &&& 1 ≠ 0 ↔ quarter = true) := by decide

/-- A code has four bits. -/
theorem encodeSample_lt (e : AdpcmEncoder) (sample : ℤ) : (e.encodeSample sample).1 < 16 := by
  have hcode : ∀ sign whole half quarter : Bool, codeOf sign whole half quarter < 16 := by decide
  obtain ⟨sign, whole, half, quarter, hspec⟩ := encodeSample_spec e sample
  rw [hspec]
  exact hcode sign whole half quarter

/-- The decoder moves its predictor by what the code says. -/
theorem decodeCode_codeOf (d : AdpcmDecoder) (sign whole half quarter : Bool) :
    d.decodeCode (codeOf sign whole half quarter) =
      (.ofInt (predicted d.predictor (stepAt d.index) sign whole half quarter),
        ⟨predicted d.predictor (stepAt d.index) sign whole half quarter,
          nextIndex d.index (codeOf sign whole half quarter)⟩) := by
  obtain ⟨hsign, hwhole, hhalf, hquarter⟩ := codeOf_and sign whole half quarter
  simp only [AdpcmDecoder.decodeCode, hsign, hwhole, hhalf, hquarter, predicted]
  cases sign <;> cases whole <;> cases half <;> cases quarter <;> simp

/-- After a sample and its code the two sides are in step again. -/
theorem InStep.sample {e : AdpcmEncoder} {d : AdpcmDecoder} (h : InStep e d) (sample : ℤ) :
    InStep (e.encodeSample sample).2 (d.decodeCode (e.encodeSample sample).1).2 := by
  obtain ⟨sign, whole, half, quarter, hspec⟩ := encodeSample_spec e sample
  rw [hspec]
  dsimp only
  rw [decodeCode_codeOf, h.predictor_eq, h.index_eq]
  obtain ⟨hnonneg, hlt⟩ := nextIndex_mem e.index (codeOf sign whole half quarter)
  exact ⟨rfl, rfl, hnonneg, hlt, (clampSample_mem _).1, (clampSample_mem _).2⟩

/-! ## A frame -/

/-- Codes are packed two to a byte, the first in the low half. -/
def pack : List UInt8 → List UInt8
  | [] => []
  | [low] => [low]
  | low :: high :: codes => (low ||| high <<< 4) :: pack codes

/-- The two halves of a byte. -/
theorem halves {low high : UInt8} (hlow : low < 16) (hhigh : high < 16) :
    (low ||| high <<< 4) &&& 0x0F = low ∧ (low ||| high <<< 4) >>> 4 = high := by
  have hall : ∀ i < 16, ∀ j < 16,
      (UInt8.ofNat i ||| UInt8.ofNat j <<< 4) &&& 0x0F = UInt8.ofNat i ∧
        (UInt8.ofNat i ||| UInt8.ofNat j <<< 4) >>> 4 = UInt8.ofNat j := by decide
  have h := hall low.toNat (UInt8.lt_iff_toNat_lt.mp hlow) high.toNat
    (UInt8.lt_iff_toNat_lt.mp hhigh)
  rwa [UInt8.ofNat_toNat, UInt8.ofNat_toNat] at h

/-- A code alone in its byte. -/
theorem low_half {low : UInt8} (hlow : low < 16) : low &&& 0x0F = low := by
  have h := (halves hlow (by decide : (0 : UInt8) < 16)).1
  rwa [show (0 : UInt8) <<< 4 = 0 by decide, UInt8.or_zero] at h

namespace AdpcmEncoder

/-- The codes of some samples and the encoder after them. -/
def codes (e : AdpcmEncoder) (pcm : List Int16) : List UInt8 × AdpcmEncoder :=
  transduce (fun e sample => e.encodeSample sample.toInt) e pcm

/-- The loop of `encode`, from any point: the codes of the samples, and the one that was waiting
before them, are packed behind what was put out. -/
theorem foldl_encodeStep (e : AdpcmEncoder) (pending : Option UInt8) (out : List UInt8)
    (pcm : List Int16) :
    flush (pcm.foldl encodeStep (e, pending, out)) =
      (out ++ pack (pending.toList ++ (e.codes pcm).1), (e.codes pcm).2) := by
  induction pcm generalizing e pending out with
  | nil => cases pending <;> simp [flush, codes, transduce, pack]
  | cons sample pcm ih =>
    cases pending with
    | none =>
      rw [List.foldl_cons, encodeStep]
      dsimp only
      rw [ih]
      rfl
    | some low =>
      rw [List.foldl_cons, encodeStep]
      dsimp only
      rw [ih, List.append_assoc]
      rfl

/-- `encode` packs the codes of the samples. -/
theorem encode_eq (e : AdpcmEncoder) (pcm : List Int16) :
    e.encode pcm = (pack (e.codes pcm).1, (e.codes pcm).2) := foldl_encodeStep e none [] pcm

end AdpcmEncoder

namespace AdpcmDecoder

/-- The samples of some codes and the decoder after them. -/
def samples (d : AdpcmDecoder) (codes : List UInt8) : List Int16 × AdpcmDecoder :=
  transduce decodeCode d codes

/-- A code is decoded while samples are missing. -/
theorem push_of_lt {sampleCount : ℕ} {out : List Int16} (h : out.length < sampleCount)
    (d : AdpcmDecoder) (code : UInt8) :
    push sampleCount (out, d) code = (out ++ [(d.decodeCode code).1], (d.decodeCode code).2) :=
  if_pos h

/-- No code is decoded when all samples are there. -/
theorem push_of_eq {sampleCount : ℕ} {out : List Int16} (h : out.length = sampleCount)
    (d : AdpcmDecoder) (code : UInt8) : push sampleCount (out, d) code = (out, d) :=
  if_neg (Nat.not_lt.mpr h.ge)

/-- The loop of `decode`, from any point: when just the samples of the codes are missing, they are
put behind those that are there. -/
theorem foldl_push {codes : List UInt8} (hcodes : ∀ code ∈ codes, code < 16) (d : AdpcmDecoder)
    (out : List Int16) {sampleCount : ℕ} (hcount : sampleCount = out.length + codes.length) :
    (pack codes).foldl (fun st byte =>
        push sampleCount (push sampleCount st (byte &&& 0x0F)) (byte >>> 4)) (out, d) =
      (out ++ (d.samples codes).1, (d.samples codes).2) := by
  -- The codes are taken two at a time, as they are packed.
  induction codes using pack.induct generalizing d out with
  | case1 => simp [pack, samples, transduce]
  | case2 low =>
    have hlow := hcodes low List.mem_cons_self
    rw [List.length_singleton] at hcount
    have hfirst := push_of_lt (by omega : out.length < sampleCount) d low
    have hfull : (out ++ [(d.decodeCode low).1]).length = sampleCount := by
      rw [List.length_append, List.length_singleton, hcount]
    have hlast := push_of_eq hfull (d.decodeCode low).2 (low >>> 4)
    rw [pack, List.foldl_cons, List.foldl_nil, low_half hlow, hfirst, hlast]
    rfl
  | case3 low high codes ih =>
    obtain ⟨hlow, hcodes⟩ := List.forall_mem_cons.mp hcodes
    obtain ⟨hhigh, hcodes⟩ := List.forall_mem_cons.mp hcodes
    obtain ⟨hand, hshift⟩ := halves hlow hhigh
    simp only [List.length_cons] at hcount
    have hfirst := push_of_lt (by omega : out.length < sampleCount) d low
    have hroom : (out ++ [(d.decodeCode low).1]).length < sampleCount := by
      rw [List.length_append, List.length_singleton]
      omega
    have hsecond := push_of_lt hroom (d.decodeCode low).2 high
    rw [pack, List.foldl_cons, hand, hshift, hfirst, hsecond,
      ih hcodes _ _ (by simp only [List.length_append, List.length_singleton]; omega)]
    simp [samples, transduce]

/-- `decode` gives the samples of the codes that were packed. -/
theorem decode_pack {codes : List UInt8} (hcodes : ∀ code ∈ codes, code < 16) (d : AdpcmDecoder) :
    d.decode (pack codes) codes.length = d.samples codes :=
  foldl_push hcodes d [] (Nat.zero_add _).symm

end AdpcmDecoder

/-- After a frame of any length the two sides are in step again, and the decoded frame has as many
samples as the original. -/
theorem InStep.frame {e : AdpcmEncoder} {d : AdpcmDecoder} (h : InStep e d) (pcm : List Int16) :
    InStep (e.encode pcm).2 (d.decode (e.encode pcm).1 pcm.length).2 ∧
      (d.decode (e.encode pcm).1 pcm.length).1.length = pcm.length := by
  have hlen : (e.codes pcm).1.length = pcm.length := length_transduce _ _ _
  have hcodes : ∀ code ∈ (e.codes pcm).1, code < 16 :=
    (transduce_invariant (fun _ => True) (· < 16)
      (fun e x _ => ⟨trivial, encodeSample_lt e x.toInt⟩) pcm trivial).2
  have hlast : InStep (e.codes pcm).2 (d.samples (e.codes pcm).1).2 :=
    (transduce_lockstep InStep (fun _ => True) (fun _ _ => True)
      (fun e d (x : Int16) hstep _ => ⟨hstep.sample x.toInt, trivial⟩) h fun _ _ => trivial).1
  rw [e.encode_eq, ← hlen, d.decode_pack hcodes]
  exact ⟨hlast, length_transduce _ _ _⟩

end LowBand.Lowbandd
