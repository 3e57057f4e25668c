import LowBand.Lib.Bytes

/-!
# File contents

A file's content is a list of bytes. `writeAt` is a positioned write, which fills a gap behind the
end of the file with zeros, and `setLen` truncates or extends with zeros. A `Handle` is an open
file description: one in append mode, or one with a cursor of its own. `chunk w i` is the `i`-th
piece of `w` bytes of a content; two contents of one length are equal when all their pieces are
(`eq_of_chunk_eq`), and writing one piece changes no other (`chunk_writeAt`).
-/

namespace Lib

/-- The content after writing `d` at offset `off`. Writing nothing does not extend the file. -/
def writeAt (c : List UInt8) (off : ℕ) (d : List UInt8) : List UInt8 :=
  if d = [] then c
  else c.take off ++ List.replicate (off - c.length) 0 ++ d ++ c.drop (off + d.length)

/-- The content truncated, or extended with zeros, to `n` bytes. -/
def setLen (c : List UInt8) (n : ℕ) : List UInt8 := c.take n ++ List.replicate (n - c.length) 0

/-- A content has the length that was set. -/
@[simp]
theorem length_setLen (c : List UInt8) (n : ℕ) : (setLen c n).length = n := by
  simp [setLen]
  omega

/-- A write at the end of the file is an append. -/
theorem writeAt_length (c d : List UInt8) : writeAt c c.length d = c ++ d := by
  unfold writeAt
  split
  · simp_all
  · simp

/-- How an open file writes: always at the end, or at a cursor. -/
inductive Handle
  | append
  | cursor (pos : ℕ)
deriving DecidableEq

/-- `write_all` through a handle: the handle afterwards and the new content. -/
def Handle.write : Handle → List UInt8 → List UInt8 → Handle × List UInt8
  | .append, c, d => (.append, c ++ d)
  | .cursor pos, c, d => (.cursor (pos + d.length), writeAt c pos d)

/-- The handle's next write goes to the end of a file with content `c`. -/
def Handle.AtEnd (h : Handle) (c : List UInt8) : Prop := h = .append ∨ h = .cursor c.length

/-- A handle at the end appends, and stays at the end. -/
theorem Handle.AtEnd.write {h : Handle} {c : List UInt8} (hend : h.AtEnd c) (d : List UInt8) :
    (h.write c d).2 = c ++ d ∧ (h.write c d).1.AtEnd (c ++ d) := by
  rcases hend with rfl | rfl
  · exact ⟨rfl, .inl rfl⟩
  · refine ⟨writeAt_length c d, .inr ?_⟩
    simp [Handle.write]

/-! ## Pieces of a content -/

/-- The `i`-th piece of `w` bytes; the last one of a content may be shorter. -/
def chunk (w i : ℕ) (c : List UInt8) : List UInt8 := (c.drop (i * w)).take w

/-- The pieces of `w` bytes that make up the content, in order: Rust's `chunks(w)`. -/
def chunks (w : ℕ) (c : List UInt8) : List (List UInt8) :=
  (List.range ((c.length + w - 1) / w)).map fun i => chunk w i c

/-- The pieces of exactly `w` bytes: Rust's `chunks_exact(w)`. -/
def chunksExact (w : ℕ) (c : List UInt8) : List (List UInt8) :=
  (List.range (c.length / w)).map fun i => chunk w i c

/-- As many whole pieces as fit. -/
@[simp]
theorem length_chunksExact (w : ℕ) (c : List UInt8) : (chunksExact w c).length = c.length / w := by
  simp [chunksExact]

/-- The pieces of exactly `w` bytes have `w` bytes. -/
theorem length_of_mem_chunksExact {w : ℕ} {c x : List UInt8} (h : x ∈ chunksExact w c) :
    x.length = w := by
  simp only [chunksExact, List.mem_map, List.mem_range] at h
  obtain ⟨i, hi, rfl⟩ := h
  have hle : (i + 1) * w ≤ c.length :=
    (Nat.mul_le_mul_right w hi).trans (Nat.div_mul_le_self c.length w)
  rw [Nat.succ_mul] at hle
  rw [chunk, List.length_take, List.length_drop]
  omega

/-- As many pieces as cover the content. -/
@[simp]
theorem length_chunks (w : ℕ) (c : List UInt8) :
    (chunks w c).length = (c.length + w - 1) / w := by
  simp [chunks]

/-- The pieces stand in order. -/
theorem getElem_chunks (w : ℕ) (c : List UInt8) (i : ℕ) (h : i < (chunks w c).length) :
    (chunks w c)[i] = chunk w i c := by
  simp [chunks]

/-- No piece is longer than the width. -/
theorem length_chunk_le (w i : ℕ) (c : List UInt8) : (chunk w i c).length ≤ w := by
  simp [chunk]

/-- The length of a list made of pieces of one length. -/
theorem length_flatMap_of_length {α β : Type*} {w : ℕ} {f : α → List β} (hf : ∀ a, (f a).length = w)
    (l : List α) : (l.flatMap f).length = l.length * w := by
  rw [List.length_flatMap, List.map_congr_left (fun a _ => hf a), List.map_const',
    List.sum_replicate_nat]

/-- An element of a row of pieces is one of its piece. -/
theorem getElem?_flatMap_of_length {α β : Type*} {w : ℕ} {f : α → List β}
    (hf : ∀ a, (f a).length = w) (l : List α) (i : ℕ) {k : ℕ} (hk : k < w) :
    (l.flatMap f)[i * w + k]? = l[i]?.bind fun a => (f a)[k]? := by
  -- By induction on the pieces: the element is in the first one or not.
  induction l generalizing i with
  | nil => rfl
  | cons a l ih =>
    rw [List.flatMap_cons]
    cases i with
    | zero =>
      rw [Nat.zero_mul, Nat.zero_add, List.getElem?_append_left ((hf a).symm ▸ hk)]
      rfl
    | succ i =>
      have hplace : (i + 1) * w + k - w = i * w + k := by
        rw [Nat.succ_mul]
        omega
      rw [List.getElem?_append_right (by rw [hf a, Nat.succ_mul]; omega), hf a, hplace, ih]
      rfl

/-- The first piece of a content that starts with `w` bytes. -/
theorem chunk_zero_append {w : ℕ} {a : List UInt8} (ha : a.length = w) (c : List UInt8) :
    chunk w 0 (a ++ c) = a := by
  rw [chunk, Nat.zero_mul, List.drop_zero, List.take_left' ha]

/-- The other pieces of a content that starts with `w` bytes are those of the rest. -/
theorem chunk_succ_append {w : ℕ} {a : List UInt8} (ha : a.length = w) (c : List UInt8) (i : ℕ) :
    chunk w (i + 1) (a ++ c) = chunk w i c := by
  rw [chunk, chunk, Nat.succ_mul, Nat.add_comm, ← ha, List.drop_append, List.drop_of_length_le
    (by omega), List.nil_append, Nat.add_sub_cancel_left]

/-- A content made of pieces of `w` bytes has these as its pieces. -/
theorem chunksExact_flatMap {α : Type*} {w : ℕ} (hw : 0 < w) {f : α → List UInt8}
    (hf : ∀ a, (f a).length = w) (l : List α) : chunksExact w (l.flatMap f) = l.map f := by
  induction l with
  | nil => simp [chunksExact]
  | cons a l ih =>
    have hlen : (f a ++ l.flatMap f).length / w = (l.flatMap f).length / w + 1 := by
      rw [List.length_append, hf, Nat.add_comm, Nat.add_div_right _ hw]
    rw [List.flatMap_cons, List.map_cons, ← ih, chunksExact, hlen, List.range_succ_eq_map,
      List.map_cons, chunk_zero_append (hf a), List.map_map, chunksExact]
    congr 1
    apply List.map_congr_left
    intro i _
    exact chunk_succ_append (hf a) _ i

/-- A position lies in the `i`-th piece of a content exactly when the piece starts inside it. -/
theorem lt_length_chunks_iff {w : ℕ} (hw : 0 < w) (c : List UInt8) (i : ℕ) :
    i < (chunks w c).length ↔ i * w < c.length := by
  rw [length_chunks, Nat.lt_iff_add_one_le, Nat.le_div_iff_mul_le hw, Nat.add_mul]
  omega

/-- A byte of a piece is one of the content. -/
theorem getElem?_chunk (w i k : ℕ) (l : List UInt8) :
    (chunk w i l)[k]? = if k < w then l[i * w + k]? else none := by
  simp [chunk, List.getElem?_take]

/-- Contents of one length that agree piece by piece are equal. -/
theorem eq_of_chunk_eq {w : ℕ} (hw : 0 < w) {c d : List UInt8} (hlen : c.length = d.length)
    (h : ∀ i < (chunks w d).length, chunk w i c = chunk w i d) : c = d := by
  apply List.ext_getElem?
  intro n
  rcases lt_or_ge n d.length with hn | hn
  · have hi : n / w < (chunks w d).length := by
      rw [lt_length_chunks_iff hw]
      exact lt_of_le_of_lt (Nat.div_mul_le_self n w) hn
    have hk : n % w < w := Nat.mod_lt n hw
    have hpos : n / w * w + n % w = n := Nat.div_add_mod' n w
    have := congrArg (fun l => l[n % w]?) (h (n / w) hi)
    simpa [getElem?_chunk, hk, hpos] using this
  · rw [List.getElem?_eq_none hn, List.getElem?_eq_none (by omega)]

/-- The bytes of a content after a write inside it. -/
theorem getElem?_writeAt {l d : List UInt8} {off : ℕ} (hoff : off + d.length ≤ l.length) (n : ℕ) :
    (writeAt l off d)[n]? = if off ≤ n ∧ n < off + d.length then d[n - off]? else l[n]? := by
  unfold writeAt
  split
  · next h => simp [h]
  · have hgap : off - l.length = 0 := by omega
    have htake : (l.take off).length = off := by simp; omega
    simp only [hgap, List.replicate_zero, List.append_nil, List.append_assoc]
    rcases lt_or_ge n off with h1 | h1
    · rw [List.getElem?_append_left (by omega), List.getElem?_take_of_lt h1, if_neg (by omega)]
    · rw [List.getElem?_append_right (by omega), htake]
      rcases lt_or_ge n (off + d.length) with h2 | h2
      · rw [List.getElem?_append_left (by omega), if_pos ⟨h1, h2⟩]
      · rw [List.getElem?_append_right (by omega), if_neg (by omega), List.getElem?_drop]
        congr 1
        omega

/-- A write inside the content keeps its length. -/
theorem length_writeAt {c d : List UInt8} {off : ℕ} (hoff : off + d.length ≤ c.length) :
    (writeAt c off d).length = c.length := by
  unfold writeAt
  split
  · rfl
  · simp; omega

/-- The piece in which a position lies. -/
theorem piece_div {w i k : ℕ} (hk : k < w) : (i * w + k) / w = i := by
  rw [Nat.mul_comm, Nat.mul_add_div (by omega), Nat.div_eq_of_lt hk, Nat.add_zero]

/-- A position in a piece lies in no other piece. -/
theorem piece_inj {w i j k l : ℕ} (hk : k < w) (hl : l < w) (h : j * w + k = i * w + l) :
    j = i := by
  rw [← piece_div (i := j) hk, h, piece_div hl]

/-- Writing bytes for all of the `i`-th piece sets that piece and keeps the others. -/
theorem chunk_writeAt_piece {w : ℕ} {c x : List UInt8} {i : ℕ}
    (hx : x.length = min w (c.length - i * w)) (hi : i * w ≤ c.length) (j : ℕ) :
    chunk w j (writeAt c (i * w) x) = if j = i then x else chunk w j c := by
  have hle : i * w + x.length ≤ c.length := by omega
  apply List.ext_getElem?
  intro k
  rw [getElem?_chunk]
  by_cases hk : k < w
  · rw [if_pos hk, getElem?_writeAt hle]
    by_cases hj : j = i
    · subst hj
      rw [if_pos rfl, Nat.add_sub_cancel_left]
      split
      · rfl
      · rw [List.getElem?_eq_none (by omega), List.getElem?_eq_none (by omega)]
    · rw [if_neg hj, getElem?_chunk w j k c, if_pos hk, if_neg]
      rintro ⟨hfrom, hto⟩
      -- Another piece has no position in common with this one.
      exact hj (piece_inj hk (by omega : j * w + k - i * w < w) (by omega))
  · have hkw : w ≤ k := Nat.not_lt.mp hk
    rw [if_neg hk]
    split
    · exact (List.getElem?_eq_none (by omega)).symm
    · exact (List.getElem?_eq_none (le_trans (length_chunk_le w j c) hkw)).symm

/-- Writing the `i`-th piece of `d` into a content of `d`'s length sets that piece and keeps the
others. -/
theorem chunk_writeAt {w : ℕ} {c d : List UInt8} (hlen : c.length = d.length) {i : ℕ}
    (hi : i * w < d.length) (j : ℕ) :
    chunk w j (writeAt c (i * w) (chunk w i d)) = if j = i then chunk w i d else chunk w j c := by
  apply chunk_writeAt_piece
  · rw [chunk, List.length_take, List.length_drop, hlen]
  · omega

/-- Writing `w` bytes into the place of a piece sets that piece and keeps the others. -/
theorem chunk_writeAt_of_length {w : ℕ} {c x : List UInt8} (hx : x.length = w) {i : ℕ}
    (hi : (i + 1) * w ≤ c.length) (j : ℕ) :
    chunk w j (writeAt c (i * w) x) = if j = i then x else chunk w j c := by
  rw [Nat.succ_mul] at hi
  apply chunk_writeAt_piece
  · rw [hx, min_eq_left (by omega)]
  · omega

/-- The pieces of a content of zeros. -/
theorem chunk_replicate {w n i : ℕ} (hi : (i + 1) * w ≤ n) (b : UInt8) :
    chunk w i (List.replicate n b) = List.replicate w b := by
  rw [Nat.succ_mul] at hi
  rw [chunk, List.drop_replicate, List.take_replicate, min_eq_left (by omega)]

/-- A whole piece has `w` bytes. -/
theorem length_chunk {w i : ℕ} {c : List UInt8} (hi : (i + 1) * w ≤ c.length) :
    (chunk w i c).length = w := by
  rw [Nat.succ_mul] at hi
  rw [chunk, List.length_take, List.length_drop]
  omega

/-- A piece of a content made of pieces of `w` bytes. -/
theorem chunk_flatMap {α : Type*} {w : ℕ} (hw : 0 < w) {f : α → List UInt8}
    (hf : ∀ a, (f a).length = w) {l : List α} {i : ℕ} (hi : i < l.length) :
    chunk w i (l.flatMap f) = f l[i] := by
  have hat := congrArg (fun pieces => pieces[i]?) (chunksExact_flatMap hw hf l)
  have hlen : (l.flatMap f).length / w = l.length := by
    rw [length_flatMap_of_length hf, Nat.mul_div_cancel _ hw]
  simp only [chunksExact, hlen, List.getElem?_map, List.getElem?_range hi,
    List.getElem?_eq_getElem hi, Option.map_some, Option.some.injEq] at hat
  exact hat

end Lib
