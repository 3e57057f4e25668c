import Mathlib.Data.List.Flatten
import Mathlib.Data.List.Nodup
import Mathlib.Data.List.Perm.Basic
import Mathlib.Logic.Function.Basic

/-!
# Families of first-in first-out queues

Items wait in the queue of their key. `Drains key q q' out` says that the queues `q` become `q'`
by releasing the items of `out`, in this order, each from the front of its queue. Such releases
compose (`Drains.trans`), and over a whole run the items released from a queue and those still in it
are the items that arrived, in the order of arrival (`perm_of_fifo` is the count over all queues).
-/

namespace Lib

variable {ι α : Type*} [DecidableEq ι] (key : α → ι)

/-- The items of `l` that belong to queue `i`. -/
def ofKey (i : ι) (l : List α) : List α := l.filter fun x => key x = i

variable {key}

/-- An empty row has nothing of any key. -/
@[simp]
theorem ofKey_nil (i : ι) : ofKey key i [] = [] := rfl

/-- What two rows have of a key follows each other. -/
@[simp]
theorem ofKey_append (i : ι) (l m : List α) :
    ofKey key i (l ++ m) = ofKey key i l ++ ofKey key i m := List.filter_append l m

/-- An element is of its own key. -/
theorem ofKey_singleton_self (x : α) : ofKey key (key x) [x] = [x] := by
  simp [ofKey]

/-- It is of no other. -/
theorem ofKey_singleton_of_ne {i : ι} {x : α} (h : key x ≠ i) : ofKey key i [x] = [] := by
  simp [ofKey, h]

variable (key)

/-- The queues `q` become `q'` by releasing `out`. -/
def Drains (q q' : ι → List α) (out : List α) : Prop := ∀ i, q i = ofKey key i out ++ q' i

variable {key}

/-- Nothing is released. -/
theorem Drains.refl (q : ι → List α) : Drains key q q [] := fun _ => rfl

/-- Releases compose. -/
theorem Drains.trans {q q' q'' : ι → List α} {out out' : List α} (h : Drains key q q' out)
    (h' : Drains key q' q'' out') : Drains key q q'' (out ++ out') := by
  intro i
  rw [h i, h' i, ofKey_append, List.append_assoc]

/-- The front of one queue is released. -/
theorem Drains.pop {q : ι → List α} {i : ι} {x : α} {rest : List α} (h : q i = x :: rest)
    (hx : key x = i) : Drains key q (Function.update q i rest) [x] := by
  subst hx
  intro j
  -- Only the queue of `x` changes.
  by_cases hj : j = key x
  · subst hj
    rw [ofKey_singleton_self, Function.update_self, h]
    rfl
  · rw [ofKey_singleton_of_ne (Ne.symm hj), Function.update_of_ne hj]
    rfl

/-- Of the queues in `order`, only that of `x` holds `x`. -/
theorem flatMap_ofKey_singleton {order : List ι} (hnodup : order.Nodup) {x : α}
    (hx : key x ∈ order) : order.flatMap (fun i => ofKey key i [x]) = [x] := by
  obtain ⟨pre, post, rfl⟩ := List.append_of_mem hx
  have hne : ∀ i ∈ pre ++ post, ofKey key i [x] = [] := by
    intro i hi
    apply ofKey_singleton_of_ne
    rintro rfl
    exact (List.nodup_cons.mp (List.nodup_middle.mp hnodup)).1 hi
  have hpre : pre.flatMap (fun i => ofKey key i [x]) = [] :=
    List.flatMap_eq_nil_iff.mpr fun i hi => hne i (List.mem_append_left _ hi)
  have hpost : post.flatMap (fun i => ofKey key i [x]) = [] :=
    List.flatMap_eq_nil_iff.mpr fun i hi => hne i (List.mem_append_right _ hi)
  rw [List.flatMap_append, List.flatMap_cons, hpre, hpost, ofKey_singleton_self]
  rfl

/-- A list is a permutation of its items sorted into the queues. -/
theorem flatMap_ofKey_perm {order : List ι} (hnodup : order.Nodup) (hall : ∀ i, i ∈ order)
    (l : List α) : (order.flatMap fun i => ofKey key i l).Perm l := by
  induction l with
  | nil => simp
  | cons x l ih =>
    have hsplit : ∀ i, ofKey key i (x :: l) = ofKey key i [x] ++ ofKey key i l :=
      fun i => ofKey_append i [x] l
    -- The first item comes to the front, from its queue.
    simp only [hsplit]
    refine (List.flatMap_append_perm _ _ _).symm.trans ?_
    rw [flatMap_ofKey_singleton hnodup (hall _)]
    exact ih.cons x

/-- Before and after a release the queues hold the same items, with those released. -/
theorem Drains.perm {q q' : ι → List α} {out : List α} {order : List ι} (h : Drains key q q' out)
    (hnodup : order.Nodup) (hall : ∀ i, i ∈ order) :
    (order.flatMap q).Perm (out ++ order.flatMap q') := by
  have hq : q = fun i => ofKey key i out ++ q' i := funext h
  rw [hq]
  refine (List.flatMap_append_perm _ _ _).symm.trans ?_
  exact (flatMap_ofKey_perm hnodup hall out).append_right _

/-- What leaves each queue in order of arrival, with what waits in the queues, is what arrived. -/
theorem perm_of_fifo {q : ι → List α} {out arrived : List α} {order : List ι}
    (hnodup : order.Nodup) (hall : ∀ i, i ∈ order)
    (h : ∀ i, ofKey key i out ++ q i = ofKey key i arrived) :
    (out ++ order.flatMap q).Perm arrived := by
  have hdrains : Drains key (fun i => ofKey key i arrived) q out := fun i => (h i).symm
  exact (hdrains.perm hnodup hall).symm.trans (flatMap_ofKey_perm hnodup hall arrived)

end Lib
