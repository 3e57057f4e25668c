import Mathlib.Data.Finset.Basic
import Mathlib.Data.List.ReduceOption

/-!
# Streams with repetitions left out

A stream gives a value or nothing at each position. `firstSeen` keeps a value where it comes first
and leaves it out wherever it comes again. Whoever sees what is left and takes the last value that
was kept for the current one is right throughout the streams in which no value comes back after
another one, `NoReturn` (`latest_firstSeen`). A stream with a return cannot be told from one without
at the position of the return (`exists_twin`).
-/

namespace Lib

variable {α : Type*}

/-- The last value of a stream. -/
def latest (xs : List (Option α)) : Option α := xs.foldl (fun last x => x.or last) none

/-- No value comes back after another one: each is new or the last one again. -/
def NoReturn (xs : List (Option α)) : Prop :=
  ∀ pre a, pre ++ [some a] <+: xs → some a ∈ pre → latest pre = some a

/-- The latest value is the last one, if there is one. -/
theorem latest_concat (xs : List (Option α)) (x : Option α) :
    latest (xs ++ [x]) = x.or (latest xs) := by
  unfold latest
  rw [List.foldl_append]
  rfl

/-- Nothing has returned in an empty history. -/
theorem noReturn_nil : NoReturn ([] : List (Option α)) := by
  intro pre a h
  simp at h

/-- A stream without returns is one whose last value is no return either. -/
theorem noReturn_concat {xs : List (Option α)} {x : Option α} :
    NoReturn (xs ++ [x]) ↔ NoReturn xs ∧ ∀ a, x = some a → x ∈ xs → latest xs = x := by
  constructor
  · intro h
    constructor
    · intro pre a hpre
      exact h pre a (hpre.trans (List.prefix_append xs [x]))
    · rintro a rfl
      exact h xs a List.prefix_rfl
  · rintro ⟨h, hx⟩ pre a hpre hmem
    rcases List.prefix_concat_iff.mp hpre with heq | hpre
    · obtain ⟨rfl, hlast⟩ := List.append_inj' heq rfl
      obtain rfl : some a = x := List.singleton_inj.mp hlast
      exact hx a rfl hmem
    · exact h pre a hpre hmem

variable [DecidableEq α]

/-- The stream with each value kept only where it comes first, and not at all if it was seen
before. -/
def firstSeen : Finset α → List (Option α) → List (Option α)
  | _, [] => []
  | seen, none :: xs => none :: firstSeen seen xs
  | seen, some a :: xs => (if a ∈ seen then none else some a) :: firstSeen (insert a seen) xs

/-- One more value. -/
theorem firstSeen_concat (seen : Finset α) (xs : List (Option α)) (a : α) :
    firstSeen seen (xs ++ [some a]) =
      firstSeen seen xs ++ [if a ∈ seen ∨ some a ∈ xs then none else some a] := by
  induction xs generalizing seen with
  | nil => simp [firstSeen]
  | cons x xs ih =>
    cases x with
    | none => simp [firstSeen, ih]
    | some b =>
      have hmem : (a ∈ insert b seen ∨ some a ∈ xs) ↔ (a ∈ seen ∨ some a ∈ some b :: xs) := by
        rw [Finset.mem_insert, List.mem_cons, Option.some.injEq]
        tauto
      simp only [List.cons_append, firstSeen, ih, hmem]

/-- One more position without a value. -/
theorem firstSeen_concat_none (seen : Finset α) (xs : List (Option α)) :
    firstSeen seen (xs ++ [none]) = firstSeen seen xs ++ [none] := by
  induction xs generalizing seen with
  | nil => rfl
  | cons x xs ih =>
    cases x with
    | none => simp [firstSeen, ih]
    | some b => simp [firstSeen, ih]

/-- In a stream without returns, the last value that was kept is the last one. -/
theorem latest_firstSeen {xs : List (Option α)} (h : NoReturn xs) :
    latest (firstSeen ∅ xs) = latest xs := by
  induction xs using List.reverseRecOn with
  | nil => rfl
  | append_singleton xs x ih =>
    obtain ⟨hxs, hx⟩ := noReturn_concat.mp h
    cases x with
    | none => rw [firstSeen_concat_none, latest_concat, latest_concat, ih hxs]
    | some a =>
      rw [firstSeen_concat, latest_concat, latest_concat, ih hxs]
      by_cases ha : some a ∈ xs
      · -- A value seen before is the last one, by `hx`.
        rw [if_pos (.inr ha), hx a rfl ha]
        rfl
      · rw [if_neg (by simpa using ha)]

/-- At the first return of a stream, nothing is kept, as if there were no value. -/
theorem exists_twin {xs : List (Option α)} (h : ¬ NoReturn xs) :
    ∃ pre ys, pre <+: xs ∧ NoReturn ys ∧ (∀ a, some a ∈ ys → some a ∈ xs) ∧
      firstSeen ∅ ys = firstSeen ∅ pre ∧ latest ys ≠ latest pre := by
  induction xs using List.reverseRecOn with
  | nil => exact absurd noReturn_nil h
  | append_singleton xs x ih =>
    by_cases hxs : NoReturn xs
    · -- The return is the last value of the stream.
      obtain ⟨a, rfl, ha, hne⟩ : ∃ a, x = some a ∧ x ∈ xs ∧ latest xs ≠ x := by
        by_contra hno
        push Not at hno
        exact h (noReturn_concat.mpr ⟨hxs, hno⟩)
      refine ⟨xs ++ [some a], xs ++ [none], List.prefix_rfl, ?_, ?_, ?_, ?_⟩
      · exact noReturn_concat.mpr ⟨hxs, by simp⟩
      · intro b hb
        have hb' : some b ∈ xs := by simpa using hb
        exact List.mem_append_left _ hb'
      · rw [firstSeen_concat, firstSeen_concat_none, if_pos (.inr ha)]
      · rw [latest_concat, latest_concat]
        exact hne
    -- The return lies in the earlier part already.
    · obtain ⟨pre, ys, hpre, hys, hmem, heq, hne⟩ := ih hxs
      refine ⟨pre, ys, hpre.trans (List.prefix_append xs [x]), hys, ?_, heq, hne⟩
      intro a ha
      exact List.mem_append_left _ (hmem a ha)

end Lib
