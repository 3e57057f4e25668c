import LowBand.Lib.Bytes
import LowBand.Lib.Saturate
import Mathlib.Data.List.GetD

/-!
# The mesh mixer

`mix` of `mesh.rs` adds the decoded streams of the peers, one after the other, into one stream, and
clamps every sample to 16 bits after every addition. At one position it computes the saturating sum
of the samples there (`toInt_getD_mix`), which is not the clamp of their exact sum and depends on
the order of the streams: `mix_eq_saturatedMix_iff` says for which streams it is.
-/

namespace LowBand.Lowbandd

open Lib

/-- `(*o as i32 + x as i32).clamp(i16::MIN as i32, i16::MAX as i32) as i16`. -/
def addClamped (o x : Int16) : Int16 := Int16.ofInt (clampI16 (o.toInt + x.toInt))

/-- A stream added to the output, as far as both go. -/
def addStream : List Int16 → List Int16 → List Int16
  | o :: out, x :: s => addClamped o x :: addStream out s
  | out, _ => out

/-- `streams.iter().map(|s| s.len()).max().unwrap_or(0)`. -/
def mixLen (streams : List (List Int16)) : ℕ := (streams.map List.length).foldr max 0

/-- `mix`. -/
def mix (streams : List (List Int16)) : List Int16 :=
  streams.foldl addStream (List.replicate (mixLen streams) 0)

/-- The samples of the streams at one position, where a stream that has ended is silent. -/
def samplesAt (streams : List (List Int16)) (i : ℕ) : List ℤ :=
  streams.map fun s => (s.getD i 0).toInt

/-- The exact sums of the samples, clamped to 16 bits. -/
def saturatedMix (streams : List (List Int16)) : List ℤ :=
  (List.range (mixLen streams)).map fun i => clampI16 (samplesAt streams i).sum

/-- The sample after an addition. -/
@[simp]
theorem toInt_addClamped (o x : Int16) :
    (addClamped o x).toInt = clampI16 (o.toInt + x.toInt) := by
  have h := clampI16_mem (o.toInt + x.toInt)
  exact Int16.toInt_ofInt_of_le h.1 h.2

/-- Silence changes no sample. -/
theorem addClamped_zero (o : Int16) : addClamped o 0 = o := by
  apply Int16.toInt_inj.mp
  rw [toInt_addClamped, clampI16_eq_self_iff.mpr]
  · simp
  · have hle := o.le_toInt
    have hlt := o.toInt_lt
    simp only [Int16.toInt_zero]
    omega

/-- Adding a stream keeps the length. -/
theorem length_addStream (out s : List Int16) : (addStream out s).length = out.length := by
  induction out generalizing s with
  | nil => rfl
  | cons o out ih =>
    cases s with
    | nil => rfl
    | cons x s => simp [addStream, ih]

/-- One position of the output after a stream is added. -/
theorem getD_addStream {out s : List Int16} {i : ℕ} (h : i < out.length) :
    (addStream out s).getD i 0 = addClamped (out.getD i 0) (s.getD i 0) := by
  induction out generalizing s i with
  | nil => simp at h
  | cons o out ih =>
    cases s with
    | nil => simp [addStream, addClamped_zero]
    | cons x s =>
      cases i with
      | zero => rfl
      | succ i => exact ih (Nat.lt_of_succ_lt_succ h)

/-- Adding all streams does. -/
theorem length_foldl_addStream (streams : List (List Int16)) (out : List Int16) :
    (streams.foldl addStream out).length = out.length := by
  induction streams generalizing out with
  | nil => rfl
  | cons s streams ih => rw [List.foldl_cons, ih, length_addStream]

/-- The mix is as long as the longest stream. -/
theorem length_mix (streams : List (List Int16)) : (mix streams).length = mixLen streams := by
  rw [mix, length_foldl_addStream, List.length_replicate]

/-- One position of the output after all streams are added. -/
theorem toInt_getD_foldl {out : List Int16} {i : ℕ} (h : i < out.length)
    (streams : List (List Int16)) :
    ((streams.foldl addStream out).getD i 0).toInt =
      (samplesAt streams i).foldl (fun s x => clampTo (-32768) 32767 (s + x))
        (out.getD i 0).toInt := by
  induction streams generalizing out with
  | nil => rfl
  | cons s streams ih =>
    rw [List.foldl_cons, ih (by rwa [length_addStream]), getD_addStream h, toInt_addClamped]
    rfl

/-- One position of the mix is the saturating sum of the samples there. -/
theorem toInt_getD_mix {streams : List (List Int16)} {i : ℕ} (h : i < mixLen streams) :
    ((mix streams).getD i 0).toInt = satSum (-32768) 32767 (samplesAt streams i) := by
  have hlen : i < (List.replicate (mixLen streams) (0 : Int16)).length := by
    rwa [List.length_replicate]
  have hzero : (List.replicate (mixLen streams) (0 : Int16)).getD i 0 = 0 := by
    rw [List.getD_eq_getElem _ _ hlen, List.getElem_replicate]
  rw [mix, toInt_getD_foldl hlen, hzero, satSum]
  rfl

/-- The clamp of the exact sums does not depend on the order of the streams. -/
theorem saturatedMix_perm {streams streams' : List (List Int16)} (h : streams.Perm streams') :
    saturatedMix streams = saturatedMix streams' := by
  have hlen : mixLen streams = mixLen streams' := (h.map List.length).foldr_eq 0
  unfold saturatedMix
  rw [hlen]
  refine List.map_congr_left fun i _ => congrArg clampI16 ?_
  exact (h.map fun s => (s.getD i 0).toInt).sum_eq

/-- The mix is the clamp of the exact sums exactly for streams whose samples at each position are
balanced: a running sum that leaves the range of 16 bits, moved to contain the whole sum, is made up
for by a later one at the other end of it. -/
theorem mix_eq_saturatedMix_iff (streams : List (List Int16)) :
    (mix streams).map Int16.toInt = saturatedMix streams ↔
      ∀ i < mixLen streams, Balanced (-32768) 32767 (samplesAt streams i) := by
  -- Sample by sample: the folded sum against the clamped one.
  have hat : ∀ i < mixLen streams,
      (((mix streams).map Int16.toInt).getD i 0 = (saturatedMix streams).getD i 0 ↔
        Balanced (-32768) 32767 (samplesAt streams i)) := by
    intro i hi
    have hmix : ((mix streams).map Int16.toInt).getD i 0 =
        satSum (-32768) 32767 (samplesAt streams i) := by
      rw [← toInt_getD_mix hi]
      exact List.getD_map _ 0 Int16.toInt
    have hexact : (saturatedMix streams).getD i 0 =
        clampTo (-32768) 32767 (samplesAt streams i).sum := by
      rw [saturatedMix, List.getD_eq_getElem _ _ (by simpa using hi)]
      simp [clampI16, clampTo]
    rw [hmix, hexact]
    exact satSum_eq_clampTo_iff (by decide) (by decide) _
  constructor
  · intro heq i hi
    rw [← hat i hi, heq]
  · intro hall
    refine List.ext_getElem (by simp [saturatedMix, length_mix]) fun i hi hi' => ?_
    have hlt : i < mixLen streams := by
      rwa [List.length_map, length_mix] at hi
    have h := (hat i hlt).mpr (hall i hlt)
    rwa [List.getD_eq_getElem _ _ hi, List.getD_eq_getElem _ _ hi'] at h

/-- Two loud streams and one of the opposite sign: the mix clips although the sum fits, and in
another order it does not. -/
theorem mix_ne_saturatedMix :
    (mix [[30000], [10000], [-10000]]).map Int16.toInt = [22767] ∧
      saturatedMix [[30000], [10000], [-10000]] = [30000] ∧
      (mix [[10000], [-10000], [30000]]).map Int16.toInt = [30000] := by
  decide

end LowBand.Lowbandd
