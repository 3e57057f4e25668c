import Mathlib.Data.List.Basic

/-!
# Cutting a stream into frames

`cut n` takes frames of `n` elements off the front of a list for as long as it can, and returns them
with what is left over. The frames of a list and the rest are the only ones that make it up
(`cut_eq`), so a stream that comes in pieces, with the rest of each kept for the next, is cut as if
it had come at once (`cut_append`).
-/

namespace Lib

variable {α : Type*} {n : ℕ}

/-- The frames of `n` elements at the front of a list, and the rest. There are none for `n = 0`. -/
def cut (n : ℕ) (xs : List α) : List (List α) × List α :=
  if 0 < n ∧ n ≤ xs.length then
    let (frames, rest) := cut n (xs.drop n)
    (xs.take n :: frames, rest)
  else ([], xs)
termination_by xs.length
decreasing_by
  rw [List.length_drop]
  omega

/-- A list that is too short has no frame. -/
theorem cut_of_lt {xs : List α} (h : xs.length < n) : cut n xs = ([], xs) := by
  rw [cut, if_neg (fun hcut => Nat.not_le_of_lt h hcut.2)]

/-- The first frame comes off the front. -/
theorem cut_frame_append (hn : 0 < n) {frame xs : List α} (hframe : frame.length = n) :
    cut n (frame ++ xs) = (frame :: (cut n xs).1, (cut n xs).2) := by
  have hle : n ≤ (frame ++ xs).length := by
    rw [List.length_append]
    omega
  rw [cut, if_pos ⟨hn, hle⟩, List.take_left' hframe, List.drop_left' hframe]

/-- Frames that are followed by less than a frame are cut off as they are. -/
theorem cut_eq (hn : 0 < n) {frames : List (List α)} {rest : List α}
    (hframes : ∀ frame ∈ frames, frame.length = n) (hrest : rest.length < n) :
    cut n (frames.flatten ++ rest) = (frames, rest) := by
  induction frames with
  | nil => exact cut_of_lt hrest
  | cons frame frames ih =>
    obtain ⟨hframe, hframes⟩ := List.forall_mem_cons.mp hframes
    rw [List.flatten_cons, List.append_assoc, cut_frame_append hn hframe, ih hframes]

/-- A list is cut into frames of `n` elements and less than `n` elements more. -/
theorem cut_spec (hn : 0 < n) (xs : List α) :
    (cut n xs).1.flatten ++ (cut n xs).2 = xs ∧
      (∀ frame ∈ (cut n xs).1, frame.length = n) ∧ (cut n xs).2.length < n := by
  induction hlen : xs.length using Nat.strongRecOn generalizing xs with
  | _ len ih =>
    by_cases hshort : xs.length < n
    · rw [cut_of_lt hshort]
      exact ⟨rfl, List.forall_mem_nil _, hshort⟩
    · have htake : (xs.take n).length = n := by
        rw [List.length_take]
        omega
      obtain ⟨hflatten, hframes, hrest⟩ := ih (xs.drop n).length (by rw [List.length_drop]; omega)
        (xs.drop n) rfl
      rw [← List.take_append_drop n xs, cut_frame_append hn htake]
      refine ⟨?_, List.forall_mem_cons.mpr ⟨htake, hframes⟩, hrest⟩
      rw [List.flatten_cons, List.append_assoc, hflatten]

/-- A stream in two pieces is cut as a whole when the rest of the first goes before the second. -/
theorem cut_append (hn : 0 < n) (xs ys : List α) :
    cut n (xs ++ ys) =
      ((cut n xs).1 ++ (cut n ((cut n xs).2 ++ ys)).1, (cut n ((cut n xs).2 ++ ys)).2) := by
  obtain ⟨hxs, hframes, -⟩ := cut_spec hn xs
  obtain ⟨hys, hframes', hrest⟩ := cut_spec hn ((cut n xs).2 ++ ys)
  have hwhole : xs ++ ys = ((cut n xs).1 ++ (cut n ((cut n xs).2 ++ ys)).1).flatten ++
      (cut n ((cut n xs).2 ++ ys)).2 := by
    rw [List.flatten_append, List.append_assoc, hys, ← List.append_assoc, hxs]
  conv_lhs => rw [hwhole]
  exact cut_eq hn (List.forall_mem_append.mpr ⟨hframes, hframes'⟩) hrest

/-- Frames that were taken off the front of a list are its first ones. -/
theorem eq_take_cut (hn : 0 < n) {frames : List (List α)} {rest : List α}
    (hframes : ∀ frame ∈ frames, frame.length = n) :
    frames = (cut n (frames.flatten ++ rest)).1.take frames.length := by
  induction frames with
  | nil => rfl
  | cons frame frames ih =>
    obtain ⟨hframe, hframes⟩ := List.forall_mem_cons.mp hframes
    rw [List.flatten_cons, List.append_assoc, cut_frame_append hn hframe, List.length_cons,
      List.take_succ_cons, ← ih hframes]

end Lib
