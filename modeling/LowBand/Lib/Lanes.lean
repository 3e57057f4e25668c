import LowBand.Lib.Queues
import LowBand.Lib.Run
import Mathlib.Data.Finset.Max
import Mathlib.Data.List.Pairwise

/-!
# Lanes of priority

Items wait in lanes, and the lanes are served in a fixed order: each time the first item of the
first lane that is not empty leaves (`Lanes.front`). This is what a heap of stamped entries is for:
entries of a higher lane first, and of one lane those with the lower stamp. `greatest_eq_front` is
the agreement of the two for entries in the order of their stamps, and `lanesOf_erase_greatest` says
that what remains agrees again.

Whatever the order of service, no lane is ever out of order (`Lanes.drains`).
-/

namespace Lib

variable {ι α β : Type*}

/-! ## Lanes -/

/-- What happens to the lanes: an item comes into a lane, or one is served. -/
inductive LaneOp (ι α : Type*) where
  /-- An item comes into a lane. -/
  | push (i : ι) (a : α)
  /-- An item is served. -/
  | pop

namespace Lanes

/-- The item that is served next, with its lane. -/
def front (q : ι → List α) : List ι → Option (ι × α)
  | [] => none
  | i :: is =>
    match q i with
    | [] => front q is
    | a :: _ => some (i, a)

/-- Nothing is served exactly when the lanes are empty. -/
theorem front_eq_none {q : ι → List α} {order : List ι} :
    front q order = none ↔ ∀ i ∈ order, q i = [] := by
  induction order with
  | nil => simp [front]
  | cons i is ih =>
    rw [List.forall_mem_cons, ← ih, front]
    split <;> simp_all

/-- What is served when the lanes before it are empty. -/
theorem front_eq_some {q : ι → List α} {pre post : List ι} {i : ι} {a : α} {rest : List α}
    (hpre : ∀ j ∈ pre, q j = []) (hi : q i = a :: rest) :
    front q (pre ++ i :: post) = some (i, a) := by
  induction pre with
  | nil => rw [List.nil_append, front, hi]
  | cons j pre ih =>
    obtain ⟨hj, hrest⟩ := List.forall_mem_cons.mp hpre
    rw [List.cons_append, front, hj]
    exact ih hrest

/-- What is served is the front of its lane. -/
theorem cons_of_front {q : ι → List α} {order : List ι} {i : ι} {a : α}
    (h : front q order = some (i, a)) : ∃ rest, q i = a :: rest := by
  induction order with
  | nil => cases h
  | cons j order ih =>
    rw [front] at h
    cases hq : q j with
    | nil =>
      rw [hq] at h
      exact ih h
    | cons b rest =>
      rw [hq] at h
      cases h
      exact ⟨rest, hq⟩

variable [DecidableEq ι]

/-- The lanes without the front of one of them. -/
def dropFront (q : ι → List α) : Option (ι × α) → ι → List α
  | none => q
  | some (i, _) => Function.update q i (q i).tail

/-- The lanes, served in `order`. -/
def serve (order : List ι) : Machine (ι → List α) (LaneOp ι α) (Option (ι × α))
  | q, .push i a => ([], Function.update q i (q i ++ [a]))
  | q, .pop => ([front q order], dropFront q (front q order))

/-- The items that come into a lane. -/
def arrivals (i : ι) (ops : List (LaneOp ι α)) : List α :=
  ops.filterMap fun
    | .push j a => if j = i then some a else none
    | .pop => none

/-- The items that are served from a lane. -/
def served (i : ι) (answers : List (Option (ι × α))) : List α :=
  answers.filterMap fun
    | some (j, a) => if j = i then some a else none
    | none => none

/-- In any run, what is served from a lane and what still waits in it are what waited before and
what came, in order. -/
theorem drains (order : List ι) (q : ι → List α) (ops : List (LaneOp ι α)) (i : ι) :
    served i ((serve order).emitted q ops) ++ (serve order).finish q ops i =
      q i ++ arrivals i ops := by
  -- By induction on the operations, from any queues.
  induction ops generalizing q with
  | nil => simp [served, arrivals, Machine.emitted, Machine.finish]
  | cons op ops ih =>
    show served i ((serve order q op).1 ++ _) ++ (serve order).finish (serve order q op).2 ops i = _
    rw [served, List.filterMap_append, List.append_assoc]
    change _ ++ (served i _ ++ _) = _
    rw [ih]
    cases op with
    | push j a =>
      by_cases hj : j = i
      · subst hj
        simp [serve, arrivals]
      · simp [serve, arrivals, hj, Function.update_of_ne (Ne.symm hj)]
    | pop =>
      -- Only the lane that is served loses its front.
      cases hfront : front q order with
      | none => simp [serve, hfront, dropFront, arrivals]
      | some p =>
        obtain ⟨j, a⟩ := p
        obtain ⟨rest, hrest⟩ := cons_of_front hfront
        by_cases hj : j = i
        · subst hj
          simp [serve, hfront, dropFront, hrest, arrivals]
        · simp [serve, hfront, dropFront, arrivals, hj, Function.update_of_ne (Ne.symm hj)]

end Lanes

/-! ## A heap of stamped entries -/

/-- The entry of a heap that no other one exceeds, by the order `le`. -/
def greatest (le : β → β → Bool) (h : List β) : Option β := h.find? fun e => h.all fun e' => le e' e

section Heap

variable (lane : β → ι) (stamp : β → ℕ) (item : β → α) (rank : ι → ℕ)

/-- The order is that of the ranks of the lanes, and in a lane the lower stamp is greater. -/
def OrdersBy (le : β → β → Bool) (h : List β) : Prop :=
  ∀ a ∈ h, ∀ b ∈ h, le a b ↔
    rank (lane a) < rank (lane b) ∨ lane a = lane b ∧ stamp b ≤ stamp a

variable {lane stamp item rank} {le : β → β → Bool} {h : List β}

/-- A heap that is not empty has a greatest entry. -/
theorem greatest_eq_none (horder : OrdersBy lane stamp rank le h)
    (hinj : Function.Injective rank) : greatest le h = none ↔ h = [] := by
  constructor
  · intro hnone
    by_contra hne
    -- The greatest rank, and in it the least stamp.
    classical
    obtain ⟨top, htop, hall⟩ := h.toFinset.exists_max_image (fun e => rank (lane e))
      ((List.toFinset_nonempty_iff h).mpr hne)
    obtain ⟨e, he, hleast⟩ := (h.toFinset.filter fun e => rank (lane e) = rank (lane top))
      |>.exists_min_image stamp ⟨top, by simpa using htop⟩
    simp only [Finset.mem_filter, List.mem_toFinset] at htop hall he hleast
    have hgreatest : (h.all fun a => le a e) = true := by
      rw [List.all_eq_true]
      intro a ha
      rw [horder a ha e he.1]
      rcases lt_or_eq_of_le (hall a ha) with hlt | heq
      · left
        omega
      · right
        exact ⟨hinj (heq.trans he.2.symm), hleast a ⟨ha, heq⟩⟩
    exact List.find?_eq_none.mp hnone e he.1 hgreatest
  · rintro rfl
    rfl

variable [DecidableEq ι]

/-- The greatest entry of a heap in the order of the stamps is the first of its lane, and higher
lanes are empty. -/
theorem ofKey_of_greatest (horder : OrdersBy lane stamp rank le h)
    (hstamp : h.Pairwise fun a b => stamp a < stamp b) {e : β} (he : greatest le h = some e) :
    (∃ rest, ofKey lane (lane e) h = e :: rest) ∧
      ∀ i, rank (lane e) < rank i → ofKey lane i h = [] := by
  have hmem : e ∈ h := List.mem_of_find?_eq_some he
  have hmax : ∀ a ∈ h, rank (lane a) < rank (lane e) ∨ lane a = lane e ∧ stamp e ≤ stamp a := by
    intro a ha
    rw [greatest] at he
    have hall := List.find?_some he
    have hle := List.all_eq_true.mp hall a ha
    exact (horder a ha e hmem).mp hle
  constructor
  · have hin : e ∈ ofKey lane (lane e) h := List.mem_filter.mpr ⟨hmem, by simp⟩
    obtain ⟨a, rest, hlane⟩ := List.exists_cons_of_ne_nil (List.ne_nil_of_mem hin)
    refine ⟨rest, ?_⟩
    rw [hlane] at hin ⊢
    -- An entry before `e` in its lane would have a lower stamp.
    rcases List.mem_cons.mp hin with rfl | htail
    · rfl
    · have ha : a ∈ ofKey lane (lane e) h := by rw [hlane]; exact List.mem_cons_self
      have hsorted : (a :: rest).Pairwise fun a b => stamp a < stamp b := by
        rw [← hlane]
        exact hstamp.sublist List.filter_sublist
      have hlt : stamp a < stamp e := (List.pairwise_cons.mp hsorted).1 e htail
      obtain ⟨hah, hkey⟩ := List.mem_filter.mp ha
      have heq : lane a = lane e := of_decide_eq_true hkey
      rcases hmax a hah with hrank | ⟨-, hge⟩
      · rw [heq] at hrank
        exact absurd hrank (Nat.lt_irrefl _)
      · omega
  · intro i hi
    apply List.filter_eq_nil_iff.mpr
    intro a ha hkey
    have heq : lane a = i := of_decide_eq_true hkey
    rcases hmax a ha with hrank | ⟨hlane, -⟩
    · rw [heq] at hrank
      omega
    · rw [← heq, hlane] at hi
      exact Nat.lt_irrefl _ hi

variable (lane item) in
/-- The lanes that the entries of a heap stand for. -/
def lanesOf (h : List β) (i : ι) : List α := (ofKey lane i h).map item

/-- The greatest entry of a heap in the order of the stamps is what its lanes serve, when they are
served by falling rank. -/
theorem greatest_eq_front (horder : OrdersBy lane stamp rank le h)
    (hstamp : h.Pairwise fun a b => stamp a < stamp b) (hinj : Function.Injective rank)
    {order : List ι} (hfall : order.Pairwise fun i j => rank j < rank i) (hall : ∀ i, i ∈ order) :
    Lanes.front (lanesOf lane item h) order =
      (greatest le h).map fun e => (lane e, item e) := by
  cases hgreatest : greatest le h with
  | none =>
    rw [(greatest_eq_none horder hinj).mp hgreatest]
    exact Lanes.front_eq_none.mpr fun _ _ => rfl
  | some e =>
    obtain ⟨⟨rest, hlane⟩, hhigher⟩ := ofKey_of_greatest horder hstamp hgreatest
    obtain ⟨pre, post, rfl⟩ := List.append_of_mem (hall (lane e))
    apply Lanes.front_eq_some
    · intro j hj
      have hlt : rank (lane e) < rank j :=
        (List.pairwise_append.mp hfall).2.2 j hj (lane e) List.mem_cons_self
      rw [lanesOf, hhigher j hlt, List.map_nil]
    · rw [lanesOf, hlane, List.map_cons]

variable [DecidableEq β]

/-- The lanes without what they serve are those of the heap without its greatest entry. -/
theorem lanesOf_erase_greatest (horder : OrdersBy lane stamp rank le h)
    (hstamp : h.Pairwise fun a b => stamp a < stamp b) {e : β} (he : greatest le h = some e) :
    lanesOf lane item (h.erase e) =
      Lanes.dropFront (lanesOf lane item h) (some (lane e, item e)) := by
  obtain ⟨⟨rest, hlane⟩, -⟩ := ofKey_of_greatest horder hstamp he
  have hnodup : h.Nodup := hstamp.imp fun hlt heq => by
    rw [heq] at hlt
    exact Nat.lt_irrefl _ hlt
  -- Taking a record out commutes with looking at one lane.
  have herase : ∀ i, ofKey lane i (h.erase e) = (ofKey lane i h).erase e := by
    intro i
    rw [ofKey, ofKey, hnodup.erase_eq_filter, (hnodup.filter _).erase_eq_filter,
      List.filter_filter, List.filter_filter]
    exact List.filter_congr fun a _ => Bool.and_comm _ _
  funext i
  rw [lanesOf, herase, Lanes.dropFront]
  by_cases hi : i = lane e
  · subst hi
    rw [Function.update_self, lanesOf, hlane, List.erase_cons_head]
    rfl
  · rw [Function.update_of_ne hi, lanesOf, List.erase_of_not_mem]
    intro hmem
    exact hi (of_decide_eq_true (List.mem_filter.mp hmem).2).symm

end Heap

end Lib
