import LowBand.Lib.Bytes

/-!
# Logs of fixed-width records

A log file is a concatenation of records of one width `w`, written by appending and read back by
filling a `w`-byte buffer until the end of the file. `records w r` is what the reader sees: the
complete records, without a partial one at the end. A prefix whose length is a multiple of `w`
frames everything behind it (`records_append_of_dvd`), so an append to an aligned log adds exactly
its own record (`records_append_record`) and a torn append adds none (`records_append_torn`).
Behind a torn append nothing of this holds.
-/

namespace Lib

variable {w : ℕ}

/-- The reader's loop, with `fuel` bounding its iterations. -/
def recordsFuel (w : ℕ) : ℕ → List UInt8 → List (Bytes w)
  | 0, _ => []
  | fuel + 1, r =>
    match readExact w r with
    | some (b, rest) => b :: recordsFuel w fuel rest
    | none => []

/-- The complete `w`-byte records at the start of `r`. Each takes at least one byte, so `r.length`
iterations read all of them. -/
def records (w : ℕ) (r : List UInt8) : List (Bytes w) := recordsFuel w r.length r

/-- Fuel beyond the length of the input changes nothing. -/
theorem recordsFuel_eq (hw : 0 < w) :
    ∀ (fuel : ℕ) (r : List UInt8), r.length ≤ fuel → recordsFuel w fuel r = records w r := by
  intro fuel
  -- A record takes at least one byte, so one unit of fuel is enough for each.
  induction fuel using Nat.strong_induction_on with
  | _ fuel ih =>
    intro r hr
    unfold records
    cases fuel with
    | zero =>
      obtain rfl : r = [] := List.eq_nil_of_length_eq_zero (by omega)
      rfl
    | succ fuel =>
      cases hlen : r.length with
      | zero =>
        obtain rfl : r = [] := List.eq_nil_of_length_eq_zero hlen
        simp [recordsFuel, readExact_eq_none, hw]
      | succ m =>
        simp only [recordsFuel]
        cases h : readExact w r with
        | none => rfl
        | some p =>
          obtain ⟨b, rest⟩ := p
          have hsplit := congrArg List.length (readExact_eq_some h)
          simp only [List.length_append, Bytes.length_val] at hsplit
          simp only [List.cons.injEq, true_and]
          rw [ih fuel (by omega) rest (by omega), ih m (by omega) rest (by omega)]

/-- A record at the start of the log is the first one read. -/
theorem records_cons (hw : 0 < w) (b : Bytes w) (r : List UInt8) :
    records w (b.val ++ r) = b :: records w r := by
  have hlen : (b.val ++ r).length = (w - 1 + r.length) + 1 := by simp; omega
  rw [records, hlen, recordsFuel, readExact_append]
  exact congrArg _ (recordsFuel_eq hw _ _ (by omega))

/-- A log shorter than one record has none. -/
theorem records_of_length_lt {r : List UInt8} (h : r.length < w) : records w r = [] := by
  unfold records
  cases hr : r.length with
  | zero => rfl
  | succ m => rw [recordsFuel, readExact_eq_none h]

/-- An empty log has no records. -/
@[simp]
theorem records_nil : records w [] = [] := rfl

/-- An aligned prefix does not disturb the framing of what follows it. -/
theorem records_append_of_dvd (hw : 0 < w) :
    ∀ (a b : List UInt8), w ∣ a.length → records w (a ++ b) = records w a ++ records w b := by
  intro a
  induction hn : a.length using Nat.strong_induction_on generalizing a with
  | _ n ih =>
    intro b hdvd
    rcases Nat.eq_zero_or_pos n with h0 | hpos
    · obtain rfl : a = [] := List.eq_nil_of_length_eq_zero (by omega)
      simp
    · have hle : w ≤ a.length := by rw [hn]; exact Nat.le_of_dvd hpos hdvd
      obtain ⟨c, rest, rfl⟩ : ∃ (c : Bytes w) (rest : List UInt8), a = c.val ++ rest :=
        ⟨⟨a.take w, by simpa using hle⟩, a.drop w, (List.take_append_drop w a).symm⟩
      have hlen : w + rest.length = n := by simpa using hn
      have hrest : w ∣ rest.length := (Nat.dvd_add_right (Nat.dvd_refl w)).mp (hlen ▸ hdvd)
      rw [List.append_assoc, records_cons hw, records_cons hw, List.cons_append,
        ih rest.length (by omega) rest rfl b hrest]

/-- Appending one record to an aligned log adds that record. -/
theorem records_append_record (hw : 0 < w) {a : List UInt8} (ha : w ∣ a.length) (b : Bytes w) :
    records w (a ++ b.val) = records w a ++ [b] := by
  rw [records_append_of_dvd hw a b.val ha]
  have := records_cons hw b []
  rw [List.append_nil] at this
  rw [this, records_nil]

/-- A torn append to an aligned log adds no record. -/
theorem records_append_torn (hw : 0 < w) {a t : List UInt8} (ha : w ∣ a.length)
    (ht : t.length < w) : records w (a ++ t) = records w a := by
  rw [records_append_of_dvd hw a t ha, records_of_length_lt ht, List.append_nil]

/-- A log written as a list of records is read back as that list. -/
theorem records_flatMap (hw : 0 < w) (bs : List (Bytes w)) :
    records w (bs.flatMap Bytes.val) = bs := by
  induction bs with
  | nil => rfl
  | cons b bs ih => rw [List.flatMap_cons, records_cons hw, ih]

end Lib
