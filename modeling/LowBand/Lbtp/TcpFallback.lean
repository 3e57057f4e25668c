import LowBand.Lib.Bytes
import LowBand.Lib.Run

/-!
# The TCP fallback

On TCP each datagram goes with its length in front, and `TcpReassembler` of `tcp_fallback.rs` finds
the datagrams again in whatever pieces the stream arrives. One iteration of its loop (`iter`) fills
the length or the body as far as the bytes reach. An iteration may take no byte, but then it leaves
the body for the next length or a full length for the body, so the loop ends (`measure_iter_lt`).

When the bytes of a piece complete what an iteration fills, the bytes after them make no difference
(`iter_append_of_le`); when they do not, the iteration stops where the next piece goes on
(`iter_append_of_lt`). So the reassembler is a `Machine.Streaming` (`push_append`), and
`reassembles` follows from what it does with one encoded datagram.
-/

namespace LowBand.Lbtp

open Lib

/-- `TCP_LENGTH_PREFIX_BYTES`. -/
def tcpLengthPrefixBytes : ℕ := 2

/-- `TCP_MAX_DATAGRAM_BYTES`. -/
def tcpMaxDatagramBytes : ℕ := 1200

/-- `TcpFramer::encode`. -/
def tcpEncode (datagram : List UInt8) : Option (List UInt8) :=
  if datagram.length > tcpMaxDatagramBytes then none
  else some (beBytes 2 datagram.length ++ datagram)

/-- `ReassemblerState`. -/
inductive ReassemblerState where
  /-- The length is read: `filled` bytes of it are there. -/
  | header (buf : Bytes tcpLengthPrefixBytes) (filled : ℕ)
    (filled_le : filled ≤ tcpLengthPrefixBytes)
  /-- A body of `expected` bytes is read. -/
  | body (expected : ℕ) (buf : List UInt8) (length_le : buf.length ≤ expected)
deriving DecidableEq

/-- The state in which a length is read from its first byte. -/
def ReassemblerState.start : ReassemblerState := .header (.fill 2 0) 0 (Nat.zero_le _)

/-- `TcpReassembler`. -/
structure TcpReassembler where
  /-- What it is reading. -/
  state : ReassemblerState
  /-- How many lengths were over the limit. -/
  oversizedRejected : UInt32
deriving DecidableEq

namespace TcpReassembler

/-- `TcpReassembler::new`. -/
def new : TcpReassembler := ⟨.start, 0⟩

/-- One iteration of the loop of `push`: the datagram it completes, the reassembler after it and the
bytes that are left. -/
def iter (s : TcpReassembler) (bytes : List UInt8) :
    List (List UInt8) × TcpReassembler × List UInt8 :=
  match s.state with
  | .header buf filled _ =>
    let copy := min (tcpLengthPrefixBytes - filled) bytes.length
    let buf := buf.write filled (bytes.take copy)
    if h : filled + copy < tcpLengthPrefixBytes then
      ([], { s with state := .header buf (filled + copy) h.le }, bytes.drop copy)
    else if ofBE buf.val > tcpMaxDatagramBytes then
      ([], ⟨.start, s.oversizedRejected + 1⟩, bytes.drop copy)
    else ([], { s with state := .body (ofBE buf.val) [] (Nat.zero_le _) }, bytes.drop copy)
  | .body expected buf _ =>
    let copy := min (expected - buf.length) bytes.length
    let buf := buf ++ bytes.take copy
    if h : buf.length < expected then
      ([], { s with state := .body expected buf h.le }, bytes.drop copy)
    else (if expected > 0 then [buf] else [], { s with state := .start }, bytes.drop copy)

/-- The loop of `push`, for at most `fuel` iterations: the datagrams completed, the reassembler
after it and the bytes that are left. -/
def pushLoop : ℕ → TcpReassembler → List UInt8 → List (List UInt8) × TcpReassembler × List UInt8
  | 0, s, bytes => ([], s, bytes)
  | fuel + 1, s, bytes =>
    if bytes = [] then ([], s, [])
    else
      let (completed, s, rest) := s.iter bytes
      let (more, s, rest) := pushLoop fuel s rest
      (completed ++ more, s, rest)

/-- How many iterations may still come without taking a byte. -/
def pending (s : TcpReassembler) : ℕ :=
  match s.state with
  | .header _ filled _ => if filled = tcpLengthPrefixBytes then 2 else 0
  | .body .. => 1

/-- A bound for the number of iterations. -/
def measure (s : TcpReassembler) (bytes : List UInt8) : ℕ := 3 * bytes.length + s.pending

/-- `push`: the datagrams completed, and the reassembler after it. -/
def push : Machine TcpReassembler (List UInt8) (List UInt8) := fun s bytes =>
  let (completed, s, _) := pushLoop (s.measure bytes) s bytes
  (completed, s)

/-! ## The loop ends -/

variable {s : TcpReassembler} {bytes a b : List UInt8}

/-- An iteration takes bytes or comes closer to taking some. -/
theorem measure_iter_lt (h : bytes ≠ []) :
    (s.iter bytes).2.1.measure (s.iter bytes).2.2 < s.measure bytes := by
  have hpos : 0 < bytes.length := List.length_pos_iff.mpr h
  obtain ⟨state, count⟩ := s
  cases state with
  | header buf filled hle =>
    unfold iter
    dsimp only
    -- The length is still open, or it is refused, or its body follows.
    split_ifs with hopen hlong
    · simp only [measure, pending, List.length_drop]
      unfold tcpLengthPrefixBytes at *
      rw [if_neg hopen.ne]
      split_ifs <;> omega
    · simp only [measure, pending, ReassemblerState.start, List.length_drop]
      unfold tcpLengthPrefixBytes at *
      rw [if_neg (by decide)]
      split_ifs <;> omega
    · simp only [measure, pending, List.length_drop]
      unfold tcpLengthPrefixBytes at *
      split_ifs <;> omega
  | body expected buf hle =>
    unfold iter
    dsimp only
    split_ifs with hopen
    · simp only [measure, pending, List.length_drop]
      rw [List.length_append, List.length_take] at hopen
      omega
    all_goals
      simp only [measure, pending, ReassemblerState.start, List.length_drop]
      rw [if_neg (by decide)]
      omega

/-- No bytes make no frames. -/
@[simp]
theorem pushLoop_nil (fuel : ℕ) : pushLoop fuel s [] = ([], s, []) := by
  cases fuel <;> rfl

/-- Fuel for the bound is enough: the loop takes all bytes, and more fuel changes nothing. -/
theorem pushLoop_of_le {fuel : ℕ} (h : s.measure bytes ≤ fuel) :
    pushLoop fuel s bytes = ((s.push bytes).1, (s.push bytes).2, []) := by
  -- Any two amounts of fuel from the bound on do the same.
  have hgen : ∀ fuel fuel' s bytes, measure s bytes ≤ fuel → measure s bytes ≤ fuel' →
      pushLoop fuel s bytes = pushLoop fuel' s bytes ∧ (pushLoop fuel s bytes).2.2 = [] := by
    intro fuel
    induction fuel with
    | zero =>
      intro fuel' s bytes h _
      obtain rfl : bytes = [] := by
        rw [← List.length_eq_zero_iff]
        unfold measure at h
        omega
      simp
    | succ fuel ih =>
      intro fuel' s bytes h h'
      by_cases hnil : bytes = []
      · simp [hnil]
      · have hlt := measure_iter_lt (s := s) hnil
        obtain ⟨fuel', rfl⟩ : ∃ n, fuel' = n + 1 := ⟨fuel' - 1, by omega⟩
        obtain ⟨heq, hrest⟩ := ih fuel' (s.iter bytes).2.1 (s.iter bytes).2.2 (by omega) (by omega)
        simp only [pushLoop, hnil, if_false, heq, true_and]
        rw [← heq, hrest]
  obtain ⟨heq, hrest⟩ := hgen _ fuel s bytes le_rfl h
  rw [← heq, push]
  dsimp only
  rw [← hrest]

/-- Pushing no bytes changes nothing. -/
@[simp]
theorem push_nil (s : TcpReassembler) : s.push [] = ([], s) := by
  simp [push]

/-- `push` on some bytes is an iteration and `push` on what it leaves. -/
theorem push_eq_iter (h : bytes ≠ []) :
    s.push bytes = ((s.iter bytes).1 ++ ((s.iter bytes).2.1.push (s.iter bytes).2.2).1,
      ((s.iter bytes).2.1.push (s.iter bytes).2.2).2) := by
  have hlt := measure_iter_lt (s := s) h
  -- One unit of fuel more is one iteration more.
  have hloop := pushLoop_of_le (Nat.le_succ (s.measure bytes))
  rw [pushLoop, if_neg h] at hloop
  dsimp only at hloop
  rw [pushLoop_of_le hlt.le] at hloop
  simp only [Prod.mk.injEq, and_true] at hloop
  exact Prod.ext hloop.1.symm hloop.2.symm

/-! ## Pieces -/

/-- How many bytes complete what is being read. -/
def need (s : TcpReassembler) : ℕ :=
  match s.state with
  | .header _ filled _ => tcpLengthPrefixBytes - filled
  | .body expected buf _ => expected - buf.length

/-- When the bytes complete what is being read, an iteration leaves those after them. -/
theorem iter_append_of_le (h : s.need ≤ a.length) :
    s.iter (a ++ b) = ((s.iter a).1, (s.iter a).2.1, (s.iter a).2.2 ++ b) := by
  obtain ⟨state, count⟩ := s
  cases state with
  | header buf filled hle =>
    have hneed : tcpLengthPrefixBytes - filled ≤ a.length := h
    -- The bytes after the first piece are not reached.
    have hcopy : min (tcpLengthPrefixBytes - filled) (a ++ b).length =
        tcpLengthPrefixBytes - filled := by
      rw [List.length_append]
      omega
    simp only [iter, hcopy, min_eq_left hneed, List.take_append_of_le_length hneed,
      List.drop_append_of_le_length hneed]
    split_ifs <;> rfl
  | body expected buf hle =>
    have hneed : expected - buf.length ≤ a.length := h
    have hcopy : min (expected - buf.length) (a ++ b).length = expected - buf.length := by
      rw [List.length_append]
      omega
    simp only [iter, hcopy, min_eq_left hneed, List.take_append_of_le_length hneed,
      List.drop_append_of_le_length hneed]
    split_ifs <;> rfl

/-- When they do not, an iteration takes them all, and goes on with the bytes that follow. -/
theorem iter_append_of_lt (h : a.length < s.need) :
    (s.iter a).1 = [] ∧ (s.iter a).2.2 = [] ∧ (s.iter a).2.1.iter b = s.iter (a ++ b) := by
  obtain ⟨state, count⟩ := s
  cases state with
  | header buf filled hle =>
    have hneed : a.length < tcpLengthPrefixBytes - filled := h
    have hcopy : min (tcpLengthPrefixBytes - filled) a.length = a.length := min_eq_right hneed.le
    have hpart : filled + a.length < tcpLengthPrefixBytes := by omega
    have hiter : (TcpReassembler.mk (.header buf filled hle) count).iter a =
        ([], ⟨.header (buf.write filled a) (filled + a.length) hpart.le, count⟩, []) := by
      simp only [iter, hcopy, hpart, dite_true, List.take_length, List.drop_length]
    rw [hiter]
    refine ⟨rfl, rfl, ?_⟩
    -- Both pieces together are filled in as far as each goes on after the other.
    have hsum : min (tcpLengthPrefixBytes - filled) (a ++ b).length =
        a.length + min (tcpLengthPrefixBytes - (filled + a.length)) b.length := by
      rw [List.length_append]
      omega
    have hfits : filled + a.length +
        (b.take (min (tcpLengthPrefixBytes - (filled + a.length)) b.length)).length ≤
        tcpLengthPrefixBytes := by
      rw [List.length_take]
      omega
    simp only [iter, hsum, List.take_length_add_append, List.drop_length_add_append,
      ← Nat.add_assoc, Bytes.write_write buf hfits]
  | body expected buf hle =>
    have hneed : a.length < expected - buf.length := h
    have hcopy : min (expected - buf.length) a.length = a.length := min_eq_right hneed.le
    have hpart : (buf ++ a).length < expected := by
      rw [List.length_append]
      omega
    have hiter : (TcpReassembler.mk (.body expected buf hle) count).iter a =
        ([], ⟨.body expected (buf ++ a) hpart.le, count⟩, []) := by
      simp only [iter, hcopy, hpart, dite_true, List.take_length, List.drop_length]
    rw [hiter]
    refine ⟨rfl, rfl, ?_⟩
    have hsum : min (expected - buf.length) (a ++ b).length =
        a.length + min (expected - (buf ++ a).length) b.length := by
      simp only [List.length_append]
      omega
    simp only [iter, hsum, List.take_length_add_append, List.drop_length_add_append,
      List.append_assoc]

/-- Two pieces do what they do as one. -/
theorem push_append (s : TcpReassembler) (a b : List UInt8) :
    s.push (a ++ b) = ((s.push a).1 ++ ((s.push a).2.push b).1, ((s.push a).2.push b).2) := by
  -- By induction on the iterations that the first piece can take.
  induction hn : s.measure a using Nat.strong_induction_on generalizing s a with
  | _ n ih =>
    by_cases ha : a = []
    · simp [ha]
    · rcases le_or_gt s.need a.length with hle | hlt
      · -- The first piece completes what is read: one iteration, then the rest of it.
        have hne : a ++ b ≠ [] := by simp [ha]
        rw [push_eq_iter hne, push_eq_iter ha, iter_append_of_le hle]
        dsimp only
        rw [ih _ (hn ▸ measure_iter_lt ha) _ _ rfl, List.append_assoc]
      · -- It does not, so an iteration takes it whole and the second piece goes on.
        obtain ⟨hout, hrest, hiter⟩ := iter_append_of_lt (b := b) hlt
        have hpush : s.push a = ([], (s.iter a).2.1) := by
          rw [push_eq_iter ha, hout, hrest, push_nil, List.append_nil]
        rw [hpush, List.nil_append]
        by_cases hb : b = []
        · rw [hb, List.append_nil, push_nil, hpush]
        · rw [push_eq_iter (by simp [hb]), ← hiter, ← push_eq_iter hb]

/-- However the stream is cut, the reassembler does the same. -/
theorem streaming_push : push.Streaming := ⟨push_nil, push_append⟩

/-! ## Whole datagrams -/

/-- The state at the end of a datagram. After an empty one its body is still to be left. -/
def Ready (s : TcpReassembler) : Prop :=
  s.state = .start ∨ s.state = .body 0 [] (Nat.zero_le _)

/-- An encoded datagram is its length and its bytes. -/
theorem tcpEncode_of_le {datagram : List UInt8} (h : datagram.length ≤ tcpMaxDatagramBytes) :
    tcpEncode datagram = some (beBytes 2 datagram.length ++ datagram) :=
  if_neg (Nat.not_lt.mpr h)

/-- From the end of a datagram, some bytes are read as from the start. -/
theorem Ready.push (hs : s.Ready) (h : bytes ≠ []) :
    s.push bytes = (TcpReassembler.mk .start s.oversizedRejected).push bytes := by
  obtain ⟨state, count⟩ := s
  rcases hs with hs | hs
  · obtain rfl : state = .start := hs
    rfl
  · obtain rfl : state = .body 0 [] (Nat.zero_le _) := hs
    -- The empty body is left without taking a byte.
    rw [push_eq_iter h]
    simp [iter]

/-- The length of a datagram is read. -/
theorem push_length (count : UInt32) {n : ℕ} (h : n ≤ tcpMaxDatagramBytes) :
    (TcpReassembler.mk .start count).push (beBytes 2 n) =
      ([], ⟨.body n [] (Nat.zero_le _), count⟩) := by
  have hlt : n < 256 ^ 2 := h.trans_lt (by decide)
  have hval : ofBE ((Bytes.fill 2 0).write 0 (beBytes 2 n)).val = n := by
    rw [Bytes.val_write _ (by simp), List.take_zero, List.nil_append, length_beBytes,
      List.drop_of_length_le (by simp), List.append_nil, ofBE_beBytes, Nat.mod_eq_of_lt hlt]
  have htake : (beBytes 2 n).take 2 = beBytes 2 n := List.take_of_length_le (by simp)
  have hiter : (TcpReassembler.mk .start count).iter (beBytes 2 n) =
      ([], ⟨.body n [] (Nat.zero_le _), count⟩, []) := by
    simp [iter, ReassemblerState.start, tcpLengthPrefixBytes, htake, hval, Nat.not_lt.mpr h]
  have hne : beBytes 2 n ≠ [] := by
    rw [← List.length_pos_iff, length_beBytes]
    decide
  rw [push_eq_iter hne, hiter]
  simp

/-- The body of a datagram is read. -/
theorem push_body (count : UInt32) (datagram : List UInt8) :
    ∃ s : TcpReassembler, s.Ready ∧ s.oversizedRejected = count ∧
      (TcpReassembler.mk (.body datagram.length [] (Nat.zero_le _)) count).push datagram =
        ([datagram].filter (· ≠ []), s) := by
  by_cases hnil : datagram = []
  · subst hnil
    -- Without a byte the empty body is not left yet.
    exact ⟨_, .inr rfl, rfl, push_nil _⟩
  · refine ⟨⟨.start, count⟩, .inl rfl, rfl, ?_⟩
    have hpos : 0 < datagram.length := List.length_pos_iff.mpr hnil
    rw [push_eq_iter hnil]
    simp [iter, hpos, hnil]

/-- One encoded datagram is delivered, unless it is empty. -/
theorem Ready.push_encoded (hs : s.Ready) {datagram : List UInt8}
    (h : datagram.length ≤ tcpMaxDatagramBytes) :
    ∃ s' : TcpReassembler, s'.Ready ∧
      s.push (beBytes 2 datagram.length ++ datagram) = ([datagram].filter (· ≠ []), s') := by
  have hne : beBytes 2 datagram.length ++ datagram ≠ [] := by
    rw [← List.length_pos_iff, List.length_append, length_beBytes]
    omega
  obtain ⟨s', hs', -, hbody⟩ := push_body s.oversizedRejected datagram
  refine ⟨s', hs', ?_⟩
  rw [hs.push hne, push_append, push_length _ h]
  dsimp only
  rw [hbody, List.nil_append]

/-- Encoded datagrams are delivered, but for the empty ones. -/
theorem push_encoded {datagrams : List (List UInt8)}
    (h : ∀ d ∈ datagrams, d.length ≤ tcpMaxDatagramBytes) :
    ∃ encoded, datagrams.mapM tcpEncode = some encoded ∧
      ∀ s : TcpReassembler, s.Ready → (s.push encoded.flatten).1 = datagrams.filter (· ≠ []) := by
  induction datagrams with
  | nil => exact ⟨[], rfl, by simp⟩
  | cons datagram datagrams ih =>
    obtain ⟨hd, hds⟩ := List.forall_mem_cons.mp h
    obtain ⟨encoded, henc, hpush⟩ := ih hds
    refine ⟨_ :: encoded, by rw [List.mapM_cons, tcpEncode_of_le hd, henc]; rfl, ?_⟩
    intro s hs
    obtain ⟨s', hs', hone⟩ := hs.push_encoded hd
    rw [List.flatten_cons, push_append, hone]
    dsimp only
    rw [hpush s' hs', ← List.filter_append]
    rfl

end TcpReassembler

open TcpReassembler in
/-- Two pieces of a stream do in every state what they do as one; so encoded datagrams are delivered
without the empty ones however their stream is cut; and the loop of `push` ends with all bytes
taken. -/
theorem reassembles :
    (∀ s a b, push s (a ++ b) =
      ((push s a).1 ++ (push (push s a).2 b).1, (push (push s a).2 b).2)) ∧
    (∀ datagrams : List (List UInt8), (∀ d ∈ datagrams, d.length ≤ tcpMaxDatagramBytes) →
      ∃ encoded, datagrams.mapM tcpEncode = some encoded ∧
        ∀ pieces : List (List UInt8), pieces.flatten = encoded.flatten →
          push.emitted new pieces = datagrams.filter (· ≠ [])) ∧
    ∀ s bytes, ∃ fuel, ∀ fuel' ≥ fuel,
      pushLoop fuel' s bytes = ((push s bytes).1, (push s bytes).2, []) := by
  refine ⟨push_append, fun datagrams h => ?_, fun s bytes => ⟨_, fun _ h => pushLoop_of_le h⟩⟩
  obtain ⟨encoded, henc, hpush⟩ := push_encoded h
  refine ⟨encoded, henc, fun pieces hpieces => ?_⟩
  have hflat := streaming_push.flatten new pieces
  rw [hpieces] at hflat
  rw [← hpush new (.inl rfl), ← hflat]

end LowBand.Lbtp
