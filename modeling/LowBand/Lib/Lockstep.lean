import Mathlib.Data.List.Forall2

/-!
# Coders in lockstep

An encoder and a decoder with a state each turn a list into another one, element by element
(`transduce`). `transduce_lockstep` is the induction behind every codec whose two sides adapt while
they run: when one element, coded and decoded, keeps a relation between the two states, so does a
list of any length, and what comes out is, element for element, what one step promises.
-/

namespace Lib

variable {σ τ α β γ : Type*}

/-- A list is turned into another one, element by element, with a state. -/
def transduce (f : σ → α → β × σ) : σ → List α → List β × σ
  | s, [] => ([], s)
  | s, a :: as => ((f s a).1 :: (transduce f (f s a).2 as).1, (transduce f (f s a).2 as).2)

/-- Each element gives one. -/
@[simp]
theorem length_transduce (f : σ → α → β × σ) (s : σ) (as : List α) :
    (transduce f s as).1.length = as.length := by
  induction as generalizing s with
  | nil => rfl
  | cons a as ih => simp [transduce, ih]

/-- The front of what comes out comes from the front of the list. -/
theorem take_transduce (f : σ → α → β × σ) (s : σ) (as : List α) (n : ℕ) :
    (transduce f s as).1.take n = (transduce f s (as.take n)).1 := by
  induction as generalizing s n with
  | nil => simp [transduce]
  | cons a as ih =>
    cases n with
    | zero => rfl
    | succ n => simp [transduce, ih]

/-- What holds of the state is kept by a list when each element keeps it, and what each element
gives from such a state has the property that it promises. -/
theorem transduce_invariant (inv : σ → Prop) (P : β → Prop) {f : σ → α → β × σ}
    (hstep : ∀ s a, inv s → inv (f s a).2 ∧ P (f s a).1) {s : σ} (as : List α) (h : inv s) :
    inv (transduce f s as).2 ∧ ∀ b ∈ (transduce f s as).1, P b := by
  induction as generalizing s with
  | nil => exact ⟨h, by simp [transduce]⟩
  | cons a as ih =>
    obtain ⟨hnext, hout⟩ := hstep s a h
    obtain ⟨hlast, hrest⟩ := ih hnext
    exact ⟨hlast, List.forall_mem_cons.mpr ⟨hout, hrest⟩⟩

/-- When each element, coded and decoded, keeps a relation of the two states and comes out as it
should, a whole list does. -/
theorem transduce_lockstep (R : σ → τ → Prop) (ok : α → Prop) (Q : α → γ → Prop)
    {enc : σ → α → β × σ} {dec : τ → β → γ × τ}
    (hstep : ∀ s t a, R s t → ok a →
      R (enc s a).2 (dec t (enc s a).1).2 ∧ Q a (dec t (enc s a).1).1)
    {s : σ} {t : τ} {as : List α} (h : R s t) (hok : ∀ a ∈ as, ok a) :
    R (transduce enc s as).2 (transduce dec t (transduce enc s as).1).2 ∧
      List.Forall₂ Q as (transduce dec t (transduce enc s as).1).1 := by
  induction as generalizing s t with
  | nil => exact ⟨h, .nil⟩
  | cons a as ih =>
    obtain ⟨ha, has⟩ := List.forall_mem_cons.mp hok
    obtain ⟨hnext, hout⟩ := hstep s t a h ha
    obtain ⟨hlast, hrest⟩ := ih hnext has
    exact ⟨hlast, .cons hout hrest⟩

end Lib
