import LowBand.Lib.Ascii

/-!
# Finding in byte strings

`rfind` and `stripSuffix` are `str::rfind` and `str::strip_suffix` on the bytes of the texts. A
pattern is found last where it is known to stand when one of its bytes does not occur again behind
it: every later occurrence would need that byte (`rfind_append`). `findSub` is `str::find`, on lists
over any type; it finds a pattern no later than where it is known to stand (`exists_findSub`), it
passes over what has not the pattern's first element (`findSub_append_of_notMem`), and a pattern of
two elements it finds behind any text without it (`findSub_append_pair`).
-/

namespace Lib

/-- `str::rfind`: the place at which the last occurrence of a pattern begins. -/
def rfind (pat : List UInt8) : List UInt8 → Option ℕ
  | [] => if pat.isPrefixOf [] then some 0 else none
  | b :: l =>
    match rfind pat l with
    | some i => some (i + 1)
    | none => if pat.isPrefixOf (b :: l) then some 0 else none

/-- `str::strip_suffix`. -/
def stripSuffix (suf l : List UInt8) : Option (List UInt8) :=
  if suf.isSuffixOf l then some (l.take (l.length - suf.length)) else none

/-- What stands before the suffix. -/
@[simp]
theorem stripSuffix_append (suf l : List UInt8) : stripSuffix suf (l ++ suf) = some l := by
  have hsuf : suf.isSuffixOf (l ++ suf) = true := by
    rw [List.isSuffixOf_iff_suffix]
    exact List.suffix_append l suf
  unfold stripSuffix
  rw [if_pos hsuf, List.length_append, Nat.add_sub_cancel, List.take_left]

/-- A pattern with a byte at place `k` is not found in a text that has not the byte from place `k`
on. -/
theorem rfind_eq_none {p q l : List UInt8} {g : UInt8} (h : g ∉ l.drop p.length) :
    rfind (p ++ g :: q) l = none := by
  have hpre : ∀ l, g ∉ l.drop p.length → (p ++ g :: q).isPrefixOf l ≠ true := by
    intro l hg htrue
    obtain ⟨r, rfl⟩ := List.isPrefixOf_iff_prefix.mp htrue
    exact hg (by simp)
  induction l with
  | nil => exact if_neg (hpre [] h)
  | cons b l ih =>
    have hl : g ∉ l.drop p.length := by
      intro hg
      have hstep : ((b :: l).drop p.length).drop 1 = l.drop p.length := by
        rw [List.drop_drop, List.drop_succ_cons]
      exact h (List.mem_of_mem_drop (hstep ▸ hg))
    simp only [rfind, ih hl, if_neg (hpre _ h)]

/-- A pattern one of whose bytes does not occur again behind its place there is found last there. -/
theorem rfind_append {p q t : List UInt8} {g : UInt8} (h : g ∉ q ++ t) (a : List UInt8) :
    rfind (p ++ g :: q) (a ++ (p ++ g :: q ++ t)) = some a.length := by
  induction a with
  | nil =>
    have hpre : (p ++ g :: q).isPrefixOf (p ++ g :: q ++ t) = true :=
      List.isPrefixOf_iff_prefix.mpr (List.prefix_append _ _)
    cases hl : p ++ g :: q ++ t with
    | nil => simp at hl
    | cons b l =>
      -- behind the first byte of the pattern the byte `g` is left at one place only
      have hdrop : l.drop p.length = q ++ t := by
        have hl' : (p ++ g :: q ++ t).drop (p.length + 1) = l.drop p.length := by
          rw [hl, List.drop_succ_cons]
        rw [← hl', List.append_assoc, List.drop_append, List.drop_of_length_le (by omega)]
        simp
      have hnone : rfind (p ++ g :: q) l = none := rfind_eq_none (hdrop ▸ h)
      rw [hl] at hpre
      simp only [List.nil_append, rfind, hnone, if_pos hpre, List.length_nil]
  | cons b a ih => simp only [List.cons_append, rfind, ih, List.length_cons]

/-- `str::find`: the place at which the first occurrence of a pattern begins. -/
def findSub {α : Type*} [DecidableEq α] (pat : List α) : List α → Option ℕ
  | [] => if pat = [] then some 0 else none
  | a :: l => if pat <+: a :: l then some 0 else (findSub pat l).map (· + 1)

/-- A pattern is found, at the latest where it stands. -/
theorem exists_findSub {α : Type*} [DecidableEq α] {pat l : List α} {j : ℕ}
    (h : pat <+: l.drop j) : ∃ i ≤ j, findSub pat l = some i ∧ pat <+: l.drop i := by
  induction l generalizing j with
  | nil =>
    rw [List.drop_nil] at h
    exact ⟨0, Nat.zero_le j, by rw [findSub, if_pos (List.prefix_nil.mp h)], h⟩
  | cons a l ih =>
    by_cases hhere : pat <+: a :: l
    · exact ⟨0, Nat.zero_le j, by rw [findSub, if_pos hhere], hhere⟩
    · cases j with
      | zero => exact absurd h hhere
      | succ j =>
        obtain ⟨i, hi, hfind, hpre⟩ := ih h
        exact ⟨i + 1, Nat.succ_le_succ hi, by rw [findSub, if_neg hhere, hfind]; rfl, hpre⟩

section FindSub

variable {α : Type*} [DecidableEq α]

/-- The pattern stands where it is found. -/
theorem isPrefix_drop_of_findSub {pat l : List α} {i : ℕ} (h : findSub pat l = some i) :
    pat <+: l.drop i := by
  induction l generalizing i with
  | nil =>
    rw [findSub] at h
    split at h
    · next hnil => exact hnil ▸ List.nil_prefix
    · cases h
  | cons a l ih =>
    rw [findSub] at h
    split at h
    · next hpre =>
      obtain rfl := Option.some.inj h
      exact hpre
    · obtain ⟨j, hj, rfl⟩ := Option.map_eq_some_iff.mp h
      exact ih hj

/-- A text is cut by the pattern that is found in it. -/
theorem exists_append_of_findSub {pat l : List α} {i : ℕ} (h : findSub pat l = some i)
    (hpat : pat ≠ []) : ∃ a b, l = a ++ (pat ++ b) ∧ a.length = i := by
  obtain ⟨b, hb⟩ := isPrefix_drop_of_findSub h
  have hi : i ≤ l.length := by
    by_contra hlt
    rw [List.drop_of_length_le (by omega)] at hb
    exact hpat (List.append_eq_nil_iff.mp hb).1
  exact ⟨l.take i, b, by rw [hb, List.take_append_drop], List.length_take_of_le hi⟩

/-- A pattern at the front is found there. -/
theorem findSub_of_isPrefix {pat l : List α} (h : pat <+: l) : findSub pat l = some 0 := by
  cases l with
  | nil => exact if_pos (List.prefix_nil.mp h)
  | cons a l => exact if_pos h

/-- Where the pattern does not stand, the search goes on. -/
theorem findSub_of_not_isPrefix {pat l : List α} {a : α} (h : ¬ pat <+: a :: l) :
    findSub pat (a :: l) = (findSub pat l).map (· + 1) := if_neg h

/-- The search goes over what has not the first element of the pattern. -/
theorem findSub_append_of_notMem {a : α} {pat l : List α} (h : a ∉ l) (r : List α) :
    findSub (a :: pat) (l ++ r) = (findSub (a :: pat) r).map (l.length + ·) := by
  induction l with
  | nil => simp
  | cons b l ih =>
    obtain ⟨hb, hl⟩ := not_or.mp (mt List.mem_cons.mpr h)
    have hhere : ¬ a :: pat <+: b :: (l ++ r) := fun hpre => hb (List.cons_prefix_cons.mp hpre).1
    rw [List.cons_append, findSub_of_not_isPrefix hhere, ih hl, Option.map_map]
    congr 1
    funext i
    simp only [Function.comp_apply, List.length_cons]
    omega

/-- A pattern does not begin in what has not its first element. -/
theorem cons_isInfix_append_iff {α : Type*} {a : α} {pat l : List α} (h : a ∉ l) (r : List α) :
    a :: pat <:+: l ++ r ↔ a :: pat <:+: r := by
  induction l with
  | nil => rfl
  | cons b l ih =>
    obtain ⟨hb, hl⟩ := not_or.mp (mt List.mem_cons.mpr h)
    have hhere : ¬ a :: pat <+: b :: (l ++ r) := fun hpre => hb (List.cons_prefix_cons.mp hpre).1
    rw [List.cons_append, List.infix_cons_iff, ih hl]
    exact or_iff_right hhere

/-- Two different elements are found behind any text in which they do not stand together. -/
theorem findSub_append_pair {a b : α} (hab : a ≠ b) {l : List α} (h : ¬ [a, b] <:+: l)
    (r : List α) : findSub [a, b] (l ++ a :: b :: r) = some l.length := by
  induction l with
  | nil => exact findSub_of_isPrefix (List.prefix_append [a, b] r)
  | cons c l ih =>
    have hl : ¬ [a, b] <:+: l := fun hin => h (hin.trans (List.suffix_cons c l).isInfix)
    have hhere : ¬ [a, b] <+: c :: (l ++ a :: b :: r) := by
      intro hpre
      obtain ⟨hac, hrest⟩ := List.cons_prefix_cons.mp hpre
      cases l with
      | nil => exact hab (List.cons_prefix_cons.mp hrest).1.symm
      | cons d l =>
        -- both elements would stand in the text
        obtain ⟨hbd, -⟩ := List.cons_prefix_cons.mp hrest
        rw [hac, hbd] at h
        exact h (List.prefix_append [c, d] l).isInfix
    rw [List.cons_append, findSub_of_not_isPrefix hhere, ih hl]
    rfl

end FindSub

end Lib
