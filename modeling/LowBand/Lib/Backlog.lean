import LowBand.Lib.Run
import Mathlib.Algebra.Order.Group.Nat
import Mathlib.Data.List.Infix

/-!
# Backlogs

A store of like things: one comes, or one is asked for, in any order. What is asked for while the
store is empty is missed. `missed_le_iff` says how often that happens without following the store:
the number of misses is the least `k` for which no part of the run from its start asks for more than
what was there, what came, and `k`. With `level_run` it gives the store after every run.
-/

namespace Lib

/-- What happens to a store. -/
inductive BacklogOp where
  /-- One comes. -/
  | arrive
  /-- One is asked for. -/
  | serve
  deriving DecidableEq, Repr

namespace BacklogOp

/-- How many come. -/
def arrivals (ops : List BacklogOp) : ℕ := ops.count arrive

/-- How many are asked for. -/
def demands (ops : List BacklogOp) : ℕ := ops.count serve

/-- What is in the store after an operation. -/
def step (level : ℕ) : BacklogOp → ℕ
  | arrive => level + 1
  | serve => level - 1

/-- How often something is asked for while the store is empty. -/
def missed : ℕ → List BacklogOp → ℕ
  | _, [] => 0
  | level, arrive :: ops => missed (level + 1) ops
  | 0, serve :: ops => missed 0 ops + 1
  | level + 1, serve :: ops => missed level ops

/-- An arrival counts as one. -/
@[simp]
theorem arrivals_cons_arrive (ops : List BacklogOp) :
    arrivals (arrive :: ops) = arrivals ops + 1 :=
  List.count_cons_self

/-- A demand is no arrival. -/
@[simp]
theorem arrivals_cons_serve (ops : List BacklogOp) : arrivals (serve :: ops) = arrivals ops :=
  List.count_cons_of_ne (by decide)

/-- An arrival is no demand. -/
@[simp]
theorem demands_cons_arrive (ops : List BacklogOp) : demands (arrive :: ops) = demands ops :=
  List.count_cons_of_ne (by decide)

/-- A demand counts as one. -/
@[simp]
theorem demands_cons_serve (ops : List BacklogOp) : demands (serve :: ops) = demands ops + 1 :=
  List.count_cons_self

/-- All that was there or came was handed out or is there still. -/
theorem level_run (level : ℕ) (ops : List BacklogOp) :
    run step level ops + demands ops = level + arrivals ops + missed level ops := by
  -- By induction on the operations, from any level.
  induction ops generalizing level with
  | nil => rfl
  | cons op ops ih =>
    rw [run_cons]
    cases op with
    | arrive =>
      have hrest := ih (level + 1)
      simp only [step, missed, arrivals_cons_arrive, demands_cons_arrive]
      omega
    | serve =>
      have hrest := ih (level - 1)
      cases level with
      -- Nobody waits, so this demand is missed.
      | zero =>
        simp only [step, missed, arrivals_cons_serve, demands_cons_serve, Nat.zero_sub] at hrest ⊢
        omega
      | succ level =>
        simp only [step, missed, arrivals_cons_serve, demands_cons_serve,
          Nat.add_sub_cancel] at hrest ⊢
        omega

/-- A bound for all parts of a run from its start, read off its first operation. -/
theorem forall_isPrefix_cons {P : List BacklogOp → Prop} {op : BacklogOp} {ops : List BacklogOp} :
    (∀ pre, pre <+: op :: ops → P pre) ↔ P [] ∧ ∀ pre, pre <+: ops → P (op :: pre) := by
  constructor
  · intro h
    exact ⟨h [] List.nil_prefix, fun pre hpre => h _ (List.cons_prefix_cons.mpr ⟨rfl, hpre⟩)⟩
  · rintro ⟨hnil, hcons⟩ pre hpre
    rcases List.prefix_cons_iff.mp hpre with rfl | ⟨rest, rfl, hrest⟩
    · exact hnil
    · exact hcons rest hrest

/-- At most `k` are missed exactly when no part of the run from its start asks for more than what
was there, what came and `k`. -/
theorem missed_le_iff {level k : ℕ} {ops : List BacklogOp} :
    missed level ops ≤ k ↔
      ∀ pre, pre <+: ops → demands pre ≤ level + arrivals pre + k := by
  induction ops generalizing level k with
  | nil =>
    refine iff_of_true (Nat.zero_le k) fun pre hpre => ?_
    rw [List.prefix_nil.mp hpre]
    exact Nat.zero_le _
  | cons op ops ih =>
    rw [forall_isPrefix_cons]
    have hnil : demands [] ≤ level + arrivals [] + k := Nat.zero_le _
    cases op with
    | arrive =>
      simp only [missed, ih, hnil, true_and, arrivals_cons_arrive, demands_cons_arrive]
      refine forall₂_congr fun pre _ => ?_
      omega
    | serve =>
      cases level with
      | succ level =>
        simp only [missed, ih, hnil, true_and, arrivals_cons_serve, demands_cons_serve]
        refine forall₂_congr fun pre _ => ?_
        omega
      | zero =>
        simp only [hnil, true_and, arrivals_cons_serve, demands_cons_serve]
        cases k with
        | zero =>
          -- The first demand is missed already.
          refine iff_of_false (Nat.not_succ_le_zero _) fun h => ?_
          have hfirst := h [] List.nil_prefix
          change 0 + 1 ≤ 0 + 0 + 0 at hfirst
          omega
        | succ k =>
          rw [missed, Nat.succ_le_succ_iff, ih]
          refine forall₂_congr fun pre _ => ?_
          omega

end BacklogOp

end Lib
