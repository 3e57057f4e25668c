import LowBand.Lib.Run
import Mathlib.Data.List.Induction
import Mathlib.Data.List.Nodup

/-!
# Records under keys

A list holds at most one record for each key. An event belongs to one key: it creates the record of
its key when there is none, and changes it when there is one. Events of different keys do not meet:
after any run the record of a key is what the events of this key alone make of it, and the records
stand in the order in which their keys first created one (`Keyed.run_eq`).
-/

namespace Lib

/-! ## First occurrences -/

/-- A value comes last when it is new. -/
theorem eraseDups_concat {α : Type*} [DecidableEq α] (l : List α) (a : α) :
    (l ++ [a]).eraseDups = if a ∈ l then l.eraseDups else l.eraseDups ++ [a] := by
  rw [List.eraseDups_append, List.removeAll]
  split_ifs with h
  · rw [List.filter_cons_of_neg (by simpa using h)]
    exact List.append_nil _
  · rw [List.filter_cons_of_pos (by simpa using h)]
    rfl

/-- Each element is left once. -/
theorem nodup_eraseDups {α : Type*} [DecidableEq α] (l : List α) : l.eraseDups.Nodup := by
  induction l using List.reverseRecOn with
  | nil => exact List.nodup_nil
  | append_singleton l a ih =>
    rw [eraseDups_concat]
    split_ifs with h
    · exact ih
    · refine List.nodup_append.mpr ⟨ih, List.nodup_singleton a, ?_⟩
      rintro x hx y hy rfl
      rw [List.mem_eraseDups, List.mem_singleton.mp hy] at hx
      exact h hx

/-! ## Records -/

/-- The record of a key is changed where it stands, when no two records have one key. -/
theorem modify_findIdx? {κ ρ : Type*} [DecidableEq κ] {key : ρ → κ} {s : List ρ}
    (hnodup : (s.map key).Nodup) {k : κ} {i : ℕ} (hi : s.findIdx? (key · = k) = some i)
    (f : ρ → ρ) : s.modify i f = s.map fun r => if key r = k then f r else r := by
  obtain ⟨hlt, hkey, -⟩ := List.findIdx?_eq_some_iff_getElem.mp hi
  have hkey : key s[i] = k := of_decide_eq_true hkey
  apply List.ext_getElem (by simp)
  -- Compared place by place: the found one is the only one with the key.
  intro j hj hj'
  rw [List.getElem_modify, List.getElem_map]
  have hjs : j < s.length := by simpa using hj
  split_ifs with hij hother hother
  · rfl
  · subst hij
    exact absurd hkey hother
  · -- Another record has the key.
    have hi' : i < (s.map key).length := by simpa using hlt
    have hj'' : j < (s.map key).length := by simpa using hjs
    have hsame : (s.map key)[i] = (s.map key)[j] := by
      rw [List.getElem_map, List.getElem_map, hkey, hother]
    exact absurd (hnodup.getElem_inj_iff.mp hsame) hij
  · rfl

/-- What events do to the records of their keys. -/
structure Keyed (κ ρ ε : Type*) where
  /-- The key of a record. -/
  key : ρ → κ
  /-- The key of an event. -/
  of : ε → κ
  /-- The record that the event makes where there is none. -/
  create : ε → Option ρ
  /-- What the event makes of the record. -/
  change : ε → ρ → ρ
  /-- A new record has the key of its event. -/
  key_create : ∀ {e r}, create e = some r → key r = of e
  /-- A record keeps its key. -/
  key_change : ∀ e r, key (change e r) = key r

namespace Keyed

variable {κ ρ ε : Type*} [DecidableEq κ] (K : Keyed κ ρ ε)

/-- An event, for the record of its key. -/
def one : Option ρ → ε → Option ρ
  | none, e => K.create e
  | some r, e => some (K.change e r)

/-- An event, for a list of records. -/
def step (s : List ρ) (e : ε) : List ρ :=
  if K.of e ∈ s.map K.key then s.map fun r => if K.key r = K.of e then K.change e r else r
  else s ++ (K.create e).toList

/-- The events of a key. -/
def mine (k : κ) (es : List ε) : List ε := es.filter fun e => K.of e = k

/-- The record that the events of a key make. -/
def record (k : κ) (es : List ε) : Option ρ := run K.one none (K.mine k es)

/-- The keys in the order in which they first created a record. -/
def order (es : List ε) : List κ := ((es.filter fun e => (K.create e).isSome).map K.of).eraseDups

variable {K}

/-- One more event. -/
theorem record_concat (k : κ) (es : List ε) (e : ε) :
    K.record k (es ++ [e]) = if K.of e = k then K.one (K.record k es) e else K.record k es := by
  unfold record mine
  rw [List.filter_append, run_append]
  split_ifs with h
  · rw [List.filter_cons_of_pos (by simpa using h)]
    rfl
  · rw [List.filter_cons_of_neg (by simpa using h)]
    rfl

/-- One more event adds its key at the end when it creates one. -/
theorem order_concat (es : List ε) (e : ε) :
    K.order (es ++ [e]) =
      if (K.create e).isSome ∧ K.of e ∉ K.order es then K.order es ++ [K.of e]
      else K.order es := by
  unfold order
  rw [List.filter_append, List.map_append]
  by_cases hcreate : (K.create e).isSome = true
  · rw [List.filter_cons_of_pos (p := fun e => (K.create e).isSome) hcreate, List.filter_nil,
      List.map_singleton, eraseDups_concat]
    simp only [List.mem_eraseDups, hcreate, true_and, ite_not]
  · rw [List.filter_cons_of_neg (p := fun e => (K.create e).isSome) hcreate, List.filter_nil,
      List.map_nil, List.append_nil, if_neg fun h => hcreate h.1]

/-- A key has a record from when it comes into the order. -/
theorem record_isSome_iff (k : κ) (es : List ε) : (K.record k es).isSome ↔ k ∈ K.order es := by
  -- By induction on the events, the last one first.
  induction es using List.reverseRecOn with
  | nil => simp [record, mine, order]
  | append_singleton es e ih =>
    rw [record_concat, order_concat]
    by_cases hk : K.of e = k
    · subst hk
      rw [if_pos rfl]
      -- The event creates the record of its key or changes the one that is there.
      cases hrecord : K.record (K.of e) es with
      | none =>
        have hnew : K.of e ∉ K.order es := by
          rw [← ih, hrecord]
          exact Bool.false_ne_true
        by_cases hcreate : (K.create e).isSome = true
        · simp [one, hnew, hcreate]
        · simp [one, hnew, hcreate]
      | some r =>
        have hold : K.of e ∈ K.order es := by
          rw [← ih, hrecord]
          rfl
        simp [one, hold]
    · rw [if_neg hk, ih]
      split_ifs
      · simp [Ne.symm hk]
      · rfl

/-- An event that creates nothing changes the record of its key, if there is one. -/
theorem step_of_create_none {e : ε} (h : K.create e = none) (s : List ρ) :
    K.step s e = s.map fun r => if K.key r = K.of e then K.change e r else r := by
  unfold step
  split_ifs with hmem
  · rfl
  · have hother : ∀ r ∈ s, (if K.key r = K.of e then K.change e r else r) = r := by
      intro r hr
      exact if_neg fun heq => hmem (List.mem_map.mpr ⟨r, hr, heq⟩)
    rw [h, Option.toList_none, List.append_nil, List.map_congr_left hother, List.map_id']

/-- The records of a run. -/
structure Holds (K : Keyed κ ρ ε) (es : List ε) (s : List ρ) : Prop where
  /-- Their keys are in the order of their creation. -/
  keys_eq : s.map K.key = K.order es
  /-- Each is what the events of its key make. -/
  record_eq : ∀ r ∈ s, K.record (K.key r) es = some r

/-- No two records have one key. -/
theorem Holds.nodup {es : List ε} {s : List ρ} (h : Holds K es s) : (s.map K.key).Nodup := by
  rw [h.keys_eq]
  exact nodup_eraseDups _

/-- One event. -/
theorem Holds.step {es : List ε} {s : List ρ} (h : Holds K es s) (e : ε) :
    Holds K (es ++ [e]) (K.step s e) := by
  unfold Keyed.step
  split_ifs with hmem
  · -- The record of the key is changed where it stands.
    constructor
    · have hkeys : (s.map fun r => if K.key r = K.of e then K.change e r else r).map K.key =
          s.map K.key := by
        rw [List.map_map]
        refine List.map_congr_left fun r _ => ?_
        show K.key (if K.key r = K.of e then K.change e r else r) = K.key r
        split_ifs
        · exact K.key_change e r
        · rfl
      rw [hkeys, h.keys_eq, order_concat, if_neg fun hnew => hnew.2 (h.keys_eq ▸ hmem)]
    · intro r' hr'
      obtain ⟨r, hr, rfl⟩ := List.mem_map.mp hr'
      rw [record_concat]
      by_cases hkey : K.key r = K.of e
      · rw [if_pos hkey, K.key_change, if_pos hkey.symm, h.record_eq r hr]
        rfl
      · rw [if_neg hkey, if_neg (Ne.symm hkey), h.record_eq r hr]
  -- The key is new: the events so far left it without a record.
  · have hnone : K.record (K.of e) es = none := by
      rw [← Option.not_isSome_iff_eq_none, record_isSome_iff, ← h.keys_eq]
      exact hmem
    have hother : ∀ r ∈ s, K.record (K.key r) (es ++ [e]) = some r := by
      intro r hr
      have hne : K.of e ≠ K.key r := by
        intro heq
        exact hmem (heq ▸ List.mem_map_of_mem hr)
      rw [record_concat, if_neg hne, h.record_eq r hr]
    -- The new record, if any, goes to the end.
    cases hcreate : K.create e with
    | none =>
      constructor
      · rw [order_concat, if_neg (by simp [hcreate]), ← h.keys_eq]
        simp
      · simpa using hother
    | some r =>
      constructor
      · rw [order_concat, if_pos ⟨by simp [hcreate], h.keys_eq ▸ hmem⟩, ← h.keys_eq]
        simp [K.key_create hcreate]
      · intro r' hr'
        rcases List.mem_append.mp hr' with hold | hnew
        · exact hother r' hold
        · obtain rfl : r' = r := by simpa using hnew
          rw [K.key_create hcreate, record_concat, if_pos rfl, hnone]
          exact hcreate

/-- After any run the table is what the events say. -/
theorem holds_run (es : List ε) : Holds K es (run K.step [] es) := by
  induction es using List.reverseRecOn with
  | nil => exact ⟨rfl, by simp⟩
  | append_singleton es e ih =>
    rw [run_append]
    exact ih.step e

/-- After any run the records are those that the events of each key make, in the order in which the
keys came. -/
theorem run_eq (es : List ε) :
    (run K.step [] es).map some = (K.order es).map fun k => K.record k es := by
  have h := holds_run (K := K) es
  rw [← h.keys_eq, List.map_map]
  exact List.map_congr_left fun r hr => (h.record_eq r hr).symm

end Keyed

end Lib
