import Mathlib.Data.List.Basic
import Mathlib.Data.List.Induction

/-!
# What holds since

`Since mark undo es` says of a history that an event marked something and no later one undid it.
Whether an event marks may depend on the events before it. `since_concat` is the effect of one more
event, and `iff_since_of_concat` the rule for a state that follows: a flag that an event sets,
clears or leaves alone is on exactly when it was set and not cleared since.
-/

namespace Lib

variable {ε : Type*} (mark : List ε → ε → Prop) (undo : ε → Prop)

/-- Some event marked, and no event since undid it. -/
def Since (es : List ε) : Prop :=
  ∃ pre e post, es = pre ++ e :: post ∧ mark pre e ∧ ∀ e' ∈ post, ¬ undo e'

variable {mark undo}

/-- Nothing was marked yet. -/
theorem not_since_nil : ¬ Since mark undo [] := by
  rintro ⟨pre, e, post, h, -⟩
  simp at h

/-- One more event marks, or leaves what was marked. -/
theorem since_concat {es : List ε} {e : ε} :
    Since mark undo (es ++ [e]) ↔ mark es e ∨ Since mark undo es ∧ ¬ undo e := by
  constructor
  · rintro ⟨pre, e', post, heq, hmark, hpost⟩
    rcases List.eq_nil_or_concat post with rfl | ⟨post, last, rfl⟩
    · obtain ⟨rfl, hlast⟩ := List.append_inj' heq rfl
      obtain rfl : e = e' := List.singleton_inj.mp hlast
      exact Or.inl hmark
    · rw [List.concat_eq_append, ← List.cons_append, ← List.append_assoc] at heq
      obtain ⟨hes, hlast⟩ := List.append_inj' heq rfl
      obtain rfl : e = last := List.singleton_inj.mp hlast
      rw [List.concat_eq_append, List.forall_mem_append, List.forall_mem_singleton] at hpost
      exact Or.inr ⟨⟨pre, e', post, hes, hmark, hpost.1⟩, hpost.2⟩
  · rintro (hmark | ⟨⟨pre, e', post, rfl, hmark, hpost⟩, hkeep⟩)
    · exact ⟨es, e, [], rfl, hmark, List.forall_mem_nil _⟩
    · refine ⟨pre, e', post ++ [e], by simp, hmark, ?_⟩
      rw [List.forall_mem_append, List.forall_mem_singleton]
      exact ⟨hpost, hkeep⟩

/-- A flag of a state that is off in the beginning, and that each event sets, clears or leaves
alone. -/
theorem iff_since_of_concat {flag : List ε → Prop} (hnil : ¬ flag [])
    (hconcat : ∀ es e, flag (es ++ [e]) ↔ mark es e ∨ flag es ∧ ¬ undo e) (es : List ε) :
    flag es ↔ Since mark undo es := by
  induction es using List.reverseRecOn with
  | nil => exact iff_of_false hnil not_since_nil
  | append_singleton es e ih => rw [hconcat, since_concat, ih]

end Lib
