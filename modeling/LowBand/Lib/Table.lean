import Mathlib.Data.List.Nodup

/-!
# Tables that a loop fills

A table is a list, and each key has its place in it. `storeAll` stores a value for each of some
keys, one after the other; a loop of `storeStep` does so when all places are in the table. When the
keys have different places, each place has the value of its key afterwards (`getElem?_storeAll`) and
the other places are as they were.

A loop of `changedStep` compares as well: it reports the keys whose value differs from what is
stored, and stores it. As no key has the place of another, what it compares with is what was stored
before the loop, so it reports exactly the keys with a new value and leaves the table as `storeAll`
does: `foldlM_changedStep`.
-/

namespace Lib

variable {κ β ρ : Type*} (place : κ → ℕ) (value : κ → β)

/-- A value is stored for each key. -/
def storeAll (keys : List κ) (table : List β) : List β :=
  keys.foldl (fun table k => table.set (place k) (value k)) table

/-- The size stays. -/
theorem length_storeAll (keys : List κ) (table : List β) :
    (storeAll place value keys table).length = table.length := by
  induction keys generalizing table with
  | nil => rfl
  | cons k keys ih => exact (ih _).trans List.length_set

/-- A place that no key has is as it was. -/
theorem getElem?_storeAll_of_ne {keys : List κ} {i : ℕ} (h : ∀ k ∈ keys, place k ≠ i)
    (table : List β) : (storeAll place value keys table)[i]? = table[i]? := by
  induction keys generalizing table with
  | nil => rfl
  | cons k keys ih =>
    obtain ⟨hk, hkeys⟩ := List.forall_mem_cons.mp h
    exact (ih hkeys _).trans (List.getElem?_set_ne hk)

/-- The place of a key has its value. -/
theorem getElem?_storeAll {keys : List κ} (hnodup : (keys.map place).Nodup) {table : List β}
    {k : κ} (hk : k ∈ keys) (hlt : place k < table.length) :
    (storeAll place value keys table)[place k]? = some (value k) := by
  induction keys generalizing table with
  | nil => exact absurd hk List.not_mem_nil
  | cons a keys ih =>
    rw [List.map_cons, List.nodup_cons] at hnodup
    by_cases hmem : k ∈ keys
    · exact ih hnodup.2 hmem (by rwa [List.length_set])
    · obtain rfl : k = a := (List.mem_cons.mp hk).resolve_right hmem
      have hother : ∀ k' ∈ keys, place k' ≠ place k := by
        intro k' hk' heq
        exact hnodup.1 (heq ▸ List.mem_map_of_mem hk')
      calc (storeAll place value (k :: keys) table)[place k]? =
          (table.set (place k) (value k))[place k]? :=
            getElem?_storeAll_of_ne place value hother _
        _ = some (value k) := by rw [List.getElem?_set_self hlt]

/-- Loops whose steps agree on the keys agree. -/
theorem foldlM_congr {σ : Type*} {f g : σ → κ → Option σ} {keys : List κ}
    (h : ∀ st, ∀ k ∈ keys, f st k = g st k) (st : σ) : keys.foldlM f st = keys.foldlM g st := by
  induction keys generalizing st with
  | nil => rfl
  | cons k keys ih =>
    rw [List.foldlM_cons, List.foldlM_cons, h st k List.mem_cons_self]
    congr 1
    funext st'
    exact ih (fun st k hk => h st k (List.mem_cons_of_mem _ hk)) st'

/-- A loop whose steps never fail and keep an invariant does not fail and keeps it. -/
theorem foldlM_total {σ : Type*} (inv : σ → Prop) {f : σ → κ → Option σ} {keys : List κ}
    (hf : ∀ k ∈ keys, ∀ st, inv st → ∃ st', f st k = some st' ∧ inv st') {st : σ} (hst : inv st) :
    ∃ st', keys.foldlM f st = some st' ∧ inv st' := by
  induction keys generalizing st with
  | nil => exact ⟨st, rfl, hst⟩
  | cons k keys ih =>
    obtain ⟨hk, hkeys⟩ := List.forall_mem_cons.mp hf
    obtain ⟨mid, hmid, hinv⟩ := hk st hst
    obtain ⟨st', hst', hinv'⟩ := ih hkeys hinv
    refine ⟨st', ?_, hinv'⟩
    rw [List.foldlM_cons, hmid]
    exact hst'

/-- A map whose function never fails does not fail. -/
theorem mapM_total {f : κ → Option β} {keys : List κ} (hf : ∀ k ∈ keys, ∃ b, f k = some b) :
    ∃ bs, keys.mapM f = some bs := by
  induction keys with
  | nil => exact ⟨[], rfl⟩
  | cons k keys ih =>
    obtain ⟨⟨b, hb⟩, hkeys⟩ := List.forall_mem_cons.mp hf
    obtain ⟨bs, hbs⟩ := ih hkeys
    refine ⟨b :: bs, ?_⟩
    rw [List.mapM_cons, hb, hbs]
    rfl

/-- A map whose function gives a value for each key gives these values. -/
theorem mapM_eq_map {f : κ → Option β} {g : κ → β} {keys : List κ}
    (hf : ∀ k ∈ keys, f k = some (g k)) : keys.mapM f = some (keys.map g) := by
  induction keys with
  | nil => rfl
  | cons k keys ih =>
    obtain ⟨hk, hkeys⟩ := List.forall_mem_cons.mp hf
    rw [List.mapM_cons, hk, ih hkeys]
    rfl

/-- A value is stored; `none` when its place is not in the table. -/
def storeStep (table : List β) (k : κ) : Option (List β) :=
  if place k < table.length then some (table.set (place k) (value k)) else none

/-- When the places are in the table, the loop stores all values. -/
theorem foldlM_storeStep {keys : List κ} {table : List β}
    (hlt : ∀ k ∈ keys, place k < table.length) :
    keys.foldlM (storeStep place value) table = some (storeAll place value keys table) := by
  induction keys generalizing table with
  | nil => rfl
  | cons k keys ih =>
    obtain ⟨hk, hkeys⟩ := List.forall_mem_cons.mp hlt
    rw [List.foldlM_cons, storeStep, if_pos hk, Option.bind_eq_bind, Option.bind_some,
      ih (by simpa using hkeys)]
    rfl

variable [DecidableEq β] (report : κ → ρ)

/-- A key is reported when its value differs from the one stored, and the value is stored; `none`
when its place is not in the table. -/
def changedStep (st : List ρ × List β) (k : κ) : Option (List ρ × List β) :=
  st.2[place k]?.map fun stored =>
    if stored ≠ value k then (st.1 ++ [report k], st.2.set (place k) (value k)) else st

/-- What a step does when the place is in the table: it stores the value, which changes nothing when
it is stored already. -/
theorem changedStep_eq {k : κ} {table : List β} (hk : place k < table.length) (reports : List ρ) :
    changedStep place value report (reports, table) k =
      some (reports ++ (if table[place k]? ≠ some (value k) then [report k] else []),
        table.set (place k) (value k)) := by
  unfold changedStep
  dsimp only
  rw [List.getElem?_eq_getElem hk, Option.map_some]
  by_cases heq : table[place k] = value k
  · have hset : table.set (place k) (value k) = table := by
      rw [← heq, List.set_getElem_self]
    simp [heq, hset]
  · simp [heq]

/-- When the keys have different places in the table, the loop reports exactly those whose value is
not the one stored, in their order, and stores all values. -/
theorem foldlM_changedStep {keys : List κ} (hnodup : (keys.map place).Nodup) {table : List β}
    (hlt : ∀ k ∈ keys, place k < table.length) (reports : List ρ) :
    keys.foldlM (changedStep place value report) (reports, table) =
      some (reports ++ (keys.filter fun k => table[place k]? ≠ some (value k)).map report,
        storeAll place value keys table) := by
  induction keys generalizing table reports with
  | nil => simp [storeAll]
  | cons k keys ih =>
    rw [List.map_cons, List.nodup_cons] at hnodup
    obtain ⟨hk, hkeys⟩ := List.forall_mem_cons.mp hlt
    -- The first step stores its value, and the other keys compare with what was there.
    have hsame : ∀ k' ∈ keys, (table.set (place k) (value k))[place k']? = table[place k']? := by
      intro k' hk'
      apply List.getElem?_set_ne
      intro heq
      exact hnodup.1 (heq ▸ List.mem_map_of_mem hk')
    have hfilter : (keys.filter fun k' =>
        (table.set (place k) (value k))[place k']? ≠ some (value k')) =
          keys.filter fun k' => table[place k']? ≠ some (value k') := by
      apply List.filter_congr
      intro k' hk'
      rw [hsame k' hk']
    rw [List.foldlM_cons, changedStep_eq place value report hk, Option.bind_eq_bind,
      Option.bind_some, ih hnodup.2 (by simpa using hkeys), hfilter]
    by_cases hne : table[place k]? ≠ some (value k)
    · rw [if_pos hne, List.filter_cons_of_pos (by simpa using hne), List.map_cons,
        List.append_assoc]
      rfl
    · rw [if_neg hne, List.filter_cons_of_neg (by simpa using hne), List.append_nil]
      rfl

end Lib
