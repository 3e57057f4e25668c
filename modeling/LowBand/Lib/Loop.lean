import Mathlib.Logic.Relation
import Mathlib.Order.RelClasses

/-!
# Loops that end

A `Loop` is the body of a loop as a function on its state: one pass goes on with a new state or
leaves with a result. A state that it goes on with is smaller in a well-founded order, so `run` has
a result from every state. `run_induction` is the rule of invariants: what holds at the start and is
kept by each pass holds where the loop is left. Each pass is one from a state that the loop reaches,
so that a condition on the passes of a run can be used in it.
-/

namespace Lib

/-- A loop with states `σ` and results `ρ`, whose passes decrease a measure. -/
structure Loop (σ ρ μ : Type*) [WellFoundedRelation μ] where
  /-- One pass: the next state, or the result. -/
  body : σ → σ ⊕ ρ
  /-- What gets smaller. -/
  measure : σ → μ
  /-- A pass that goes on makes the measure smaller. -/
  decreases : ∀ s t, body s = .inl t → WellFoundedRelation.rel (measure t) (measure s)

namespace Loop

variable {σ ρ μ : Type*} [WellFoundedRelation μ] (l : Loop σ ρ μ)

/-- The loop comes from one state to another. -/
def Reaches : σ → σ → Prop := Relation.ReflTransGen fun s t => l.body s = .inl t

variable {l}

/-- One more pass of the loop. -/
theorem Reaches.step {s t u : σ} (h : l.Reaches s t) (hstep : l.body t = .inl u) :
    l.Reaches s u := Relation.ReflTransGen.tail h hstep

/-- What holds at the start and is kept by each pass holds in every state that is reached. -/
theorem Reaches.invariant {inv : σ → Prop} {s t : σ} (hreach : l.Reaches s t)
    (hstep : ∀ t u, inv t → l.body t = .inl u → inv u) (hstart : inv s) : inv t := by
  induction hreach with
  | refl => exact hstart
  | tail _ hbody ih => exact hstep _ _ ih hbody

/-- The result of the loop. -/
def run (l : Loop σ ρ μ) (s : σ) : ρ :=
  match _h : l.body s with
  | .inl t => l.run t
  | .inr r => r
termination_by l.measure s
decreasing_by exact l.decreases s t _h

/-- A loop that goes on gives what it gives from there. -/
theorem run_of_inl {s t : σ} (h : l.body s = .inl t) : l.run s = l.run t := by
  rw [run]
  split
  · next u hu =>
    rw [h] at hu
    cases hu
    rfl
  · next r hr => simp [h] at hr

/-- A loop that ends gives its result. -/
theorem run_of_inr {s : σ} {r : ρ} (h : l.body s = .inr r) : l.run s = r := by
  rw [run]
  split
  · next u hu => simp [h] at hu
  · next r' hr =>
    rw [h] at hr
    cases hr
    rfl

/-- What holds at the start and is kept by each pass gives what the result has to meet. -/
theorem run_induction {inv : σ → Prop} {post : ρ → Prop} {s : σ} (hstart : inv s)
    (hstep : ∀ t u, l.Reaches s t → inv t → l.body t = .inl u → inv u)
    (hout : ∀ t r, l.Reaches s t → inv t → l.body t = .inr r → post r) : post (l.run s) := by
  have key : ∀ t, l.Reaches s t → inv t → post (l.run t) := by
    intro t
    induction t using run.induct l with
    | case1 t u hbody ih =>
      intro hreach ht
      rw [run_of_inl hbody]
      exact ih (hreach.step hbody) (hstep t u hreach ht hbody)
    | case2 t r hbody =>
      intro hreach ht
      rw [run_of_inr hbody]
      exact hout t r hreach ht hbody
  exact key s Relation.ReflTransGen.refl hstart

end Loop

end Lib
