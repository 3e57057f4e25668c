import LowBand.Lib.Symmetric
import Mathlib.Data.List.Forall2

/-!
# The audit log

`audit.rs` signs each entry with a keyed hash of the entry's fields behind a chain hash of the
signature before it. Strings are their UTF-8 bytes. The hash, four instances of SipHash-2-4, is
transcribed; that it has no collisions and that nobody without the key can sign are assumptions
about one log and one list offered in its place (`IdealHash`).

A log that was built by appends verifies (`AuditLog.verifies_build`). In a list that verifies, the
payload at each place is one the log signed, and its chain hash says at which place, because the
chain hashes of a log differ (`IdealHash.chainAt_inj`). So the list is the log's beginning, entry by
entry with the same signed bytes, and every such list does verify: `verify_rejects_iff`. Two kinds
of tampering are among them, deleting the last entries and changing an absent capability to an empty
one (`deleted_last_entry_verifies`).
-/

namespace LowBand.Messaging

open Lib

/-! ## The keyed hash -/

/-- `u64::rotate_left`. -/
def rotateLeft (x : UInt64) (n : UInt64) : UInt64 := (x <<< n) ||| (x >>> (64 - n))

/-- The state of SipHash. -/
structure SipState where
  /-- Word 0. -/
  v0 : UInt64
  /-- Word 1. -/
  v1 : UInt64
  /-- Word 2. -/
  v2 : UInt64
  /-- Word 3. -/
  v3 : UInt64

/-- The macro `sipr`: one round. -/
def sipr (s : SipState) : SipState :=
  let v0 := s.v0 + s.v1
  let v1 := rotateLeft s.v1 13
  let v1 := v1 ^^^ v0
  let v0 := rotateLeft v0 32
  let v2 := s.v2 + s.v3
  let v3 := rotateLeft s.v3 16
  let v3 := v3 ^^^ v2
  let v0 := v0 + v3
  let v3 := rotateLeft v3 21
  let v3 := v3 ^^^ v0
  let v2 := v2 + v1
  let v1 := rotateLeft v1 17
  let v1 := v1 ^^^ v2
  let v2 := rotateLeft v2 32
  ⟨v0, v1, v2, v3⟩

/-- One message word: two rounds between mixing it into `v3` and into `v0`. -/
def sipWord (s : SipState) (m : UInt64) : SipState :=
  let s := sipr (sipr { s with v3 := s.v3 ^^^ m })
  { s with v0 := s.v0 ^^^ m }

/-- SipHash-2-4. -/
def siphash24 (k0 k1 : UInt64) (msg : List UInt8) : UInt64 :=
  let s : SipState :=
    ⟨k0 ^^^ 0x736f6d6570736575, k1 ^^^ 0x646f72616e646f6d, k0 ^^^ 0x6c7967656e657261,
      k1 ^^^ 0x7465646279746573⟩
  let blocks := msg.length / 8
  let s := (List.range blocks).foldl
    (fun s i => sipWord s (UInt64.ofNat (ofLE ((msg.drop (i * 8)).take 8)))) s
  let rem := msg.drop (blocks * 8)
  let last := rem.zipIdx.foldl (fun last x => last ||| (x.1.toUInt64 <<< UInt64.ofNat (x.2 * 8)))
    (UInt64.ofNat msg.length <<< 56)
  let s := sipWord s last
  let s := sipr (sipr (sipr (sipr { s with v2 := s.v2 ^^^ 0xff })))
  s.v0 ^^^ s.v1 ^^^ s.v2 ^^^ s.v3

/-- Word `i` of a key. -/
def keyWord (key : Bytes 32) (i : ℕ) : UInt64 := UInt64.ofNat (ofLE ((key.val.drop (8 * i)).take 8))

/-- The keyed hash of 256 bits: four instances of SipHash with keys derived from `key`. -/
def kh256 (key : Bytes 32) (msg : List UInt8) : Bytes 32 :=
  let k0a := keyWord key 0
  let k0b := keyWord key 1
  let k1a := keyWord key 2
  let k1b := keyWord key 3
  let h0 := siphash24 k0a k0b msg
  let h1 := siphash24 k1a k1b msg
  let h2 := siphash24 (k0a ^^^ k1b) (k0b ^^^ k1a) msg
  let h3 := siphash24 (k0a + k1a) (k0b + k1b) msg
  ⟨leBytes 8 h0.toNat ++ leBytes 8 h1.toNat ++ leBytes 8 h2.toNat ++ leBytes 8 h3.toNat, by simp⟩

/-! ## Entries and the log -/

/-- What an entry records. -/
structure AuditEvent where
  /-- The label of the event. -/
  eventType : List UInt8
  /-- The capability it relates to. -/
  capability : Option (List UInt8)
  /-- The static key of the peer. -/
  identityKey : Option (Bytes 32)
  /-- Milliseconds since the epoch. -/
  occurredAtMs : UInt64
deriving DecidableEq

/-- `AuditEntry`: an event with its signature. -/
structure AuditEntry extends AuditEvent where
  /-- The keyed hash of the entry behind the chain hash. -/
  signature : Bytes 32
deriving DecidableEq

/-- The bytes of the optional identity key: a flag, and the key if there is one. -/
def identityBytes : Option (Bytes 32) → List UInt8
  | none => [0]
  | some k => 1 :: k.val

/-- The signed bytes of an event, behind the chain hash. An absent capability is signed as the empty
one. -/
def eventBytes (e : AuditEvent) : List UInt8 :=
  let cap := e.capability.getD []
  leBytes 4 e.eventType.length ++ e.eventType ++ leBytes 4 cap.length ++ cap ++
    identityBytes e.identityKey ++ leBytes 8 e.occurredAtMs.toNat

/-- What `sign_entry` hashes. -/
def payload (chainHash : Bytes 32) (e : AuditEvent) : List UInt8 := chainHash.val ++ eventBytes e

/-- `sign_entry`. -/
def signEntry (key chainHash : Bytes 32) (e : AuditEvent) : Bytes 32 :=
  kh256 key (payload chainHash e)

/-- The key of the chain hash. -/
def derivedKey (key : Bytes 32) : Bytes 32 :=
  ⟨key.val.zipIdx.map fun x => x.1 ^^^ (0x5c + UInt8.ofNat x.2), by simp⟩

/-- `advance_chain`. -/
def advanceChain (key sig : Bytes 32) : Bytes 32 := kh256 (derivedKey key) sig.val

/-- The chain hash before the first entry. -/
def initialChain : Bytes 32 := Bytes.fill 32 0

/-- `AuditLog`. -/
structure AuditLog where
  /-- The session key. -/
  key : Bytes 32
  /-- The chain hash after the last entry. -/
  chainHash : Bytes 32
  /-- The entries, in order. -/
  entries : List AuditEntry

namespace AuditLog

/-- An empty log. -/
def new (key : Bytes 32) : AuditLog := ⟨key, initialChain, []⟩

/-- `append_inner`, which `append` and `append_with_identity` call. -/
def appendInner (log : AuditLog) (e : AuditEvent) : AuditLog :=
  let sig := signEntry log.key log.chainHash e
  { log with
    chainHash := advanceChain log.key sig
    entries := log.entries ++ [{ e with signature := sig }] }

/-- The log that the appends of some events build. -/
def build (key : Bytes 32) (events : List AuditEvent) : AuditLog :=
  events.foldl appendInner (new key)

end AuditLog

/-- The loop of `verify_entries`, from a chain hash. -/
def verifyFrom (key : Bytes 32) : Bytes 32 → List AuditEntry → Bool
  | _, [] => true
  | chainHash, entry :: entries =>
    if entry.signature ≠ signEntry key chainHash entry.toAuditEvent then false
    else verifyFrom key (advanceChain key entry.signature) entries

/-- `verify_entries`. -/
def verifyEntries (entries : List AuditEntry) (key : Bytes 32) : Bool :=
  verifyFrom key initialChain entries

/-! ## What verification accepts -/

/-- The chain hash before entry `i` of a list, from `c`. -/
def chainFrom (key c : Bytes 32) (es : List AuditEntry) : ℕ → Bytes 32
  | 0 => c
  | i + 1 =>
    match es[i]? with
    | some e => advanceChain key e.signature
    | none => c

/-- The chain hash before entry `i` of a list. -/
def chainAt (key : Bytes 32) (es : List AuditEntry) (i : ℕ) : Bytes 32 :=
  chainFrom key initialChain es i

variable {key c : Bytes 32} {es : List AuditEntry}

/-- Behind the first entry the chain goes on from its signature. -/
theorem chainFrom_cons {e : AuditEntry} {i : ℕ} (h : i ≤ es.length) :
    chainFrom key c (e :: es) (i + 1) = chainFrom key (advanceChain key e.signature) es i := by
  cases i with
  | zero => rfl
  | succ i =>
    have hi : i < es.length := h
    simp only [chainFrom, List.getElem?_cons_succ, List.getElem?_eq_getElem hi]

/-- Verification succeeds when every signature is that of its entry behind the chain hash. -/
theorem verifyFrom_iff :
    verifyFrom key c es = true ↔ ∀ i e, es[i]? = some e →
      e.signature = signEntry key (chainFrom key c es i) e.toAuditEvent := by
  -- By induction on the entries: the chain behind the first one is the start of the others.
  induction es generalizing c with
  | nil => simp [verifyFrom]
  | cons e es ih =>
    unfold verifyFrom
    constructor
    · intro h i e' he'
      split at h
      · simp at h
      · rename_i hsig
        cases i with
        | zero =>
          obtain rfl := Option.some.inj he'
          exact not_not.mp hsig
        | succ i =>
          rw [List.getElem?_cons_succ] at he'
          have hi : i < es.length := (List.getElem?_eq_some_iff.mp he').1
          rw [chainFrom_cons hi.le]
          exact ih.mp h i e' he'
    · intro h
      have h0 : e.signature = signEntry key c e.toAuditEvent := h 0 e rfl
      rw [if_neg (not_not.mpr h0), ih]
      intro i e' he'
      have hi : i < es.length := (List.getElem?_eq_some_iff.mp he').1
      rw [← chainFrom_cons hi.le]
      exact h (i + 1) e' he'

/-- The entries that a prefix of a verified list has verify too. -/
theorem verifyFrom_take (n : ℕ) (h : verifyFrom key c es = true) :
    verifyFrom key c (es.take n) = true := by
  induction es generalizing c n with
  | nil => simpa using h
  | cons e es ih =>
    cases n with
    | zero => rfl
    | succ n =>
      unfold verifyFrom at h
      split at h
      · simp at h
      · rename_i hsig
        rw [List.take_succ_cons, verifyFrom, if_neg hsig]
        exact ih n h

/-- Two entries with one signature and the same signed bytes. -/
def SameSigned (a b : AuditEntry) : Prop :=
  a.signature = b.signature ∧ eventBytes a.toAuditEvent = eventBytes b.toAuditEvent

/-- Whether two entries have the same signed bytes can be decided. -/
instance (a b : AuditEntry) : Decidable (SameSigned a b) :=
  inferInstanceAs (Decidable (_ ∧ _))

/-- Verification sees no difference between entries with the same signed bytes. -/
theorem verifyFrom_congr {fs : List AuditEntry} (h : List.Forall₂ SameSigned fs es) :
    verifyFrom key c fs = verifyFrom key c es := by
  induction h generalizing c with
  | nil => rfl
  | @cons a b _ _ hab _ ih =>
    obtain ⟨hsig, hbytes⟩ := hab
    have hsign : signEntry key c a.toAuditEvent = signEntry key c b.toAuditEvent := by
      rw [signEntry, signEntry, payload, payload, hbytes]
    rw [verifyFrom, verifyFrom, hsign, hsig, ih]

/-! ## The log verifies -/

/-- The chain hash of a log is that behind its last entry, and its entries verify. -/
structure AuditLog.Valid (log : AuditLog) : Prop where
  /-- The chain hash. -/
  chain : log.chainHash = chainAt log.key log.entries log.entries.length
  /-- The entries. -/
  verifies : verifyEntries log.entries log.key = true

/-- Appending keeps a log valid. -/
theorem AuditLog.Valid.appendInner {log : AuditLog} (h : log.Valid) (e : AuditEvent) :
    (log.appendInner e).Valid := by
  have hlast : (log.entries ++ [{ e with signature := signEntry log.key log.chainHash e }])[
      log.entries.length]? = some { e with signature := signEntry log.key log.chainHash e } := by
    simp
  constructor
  · simp only [AuditLog.appendInner, chainAt, List.length_append, List.length_singleton,
      chainFrom, hlast]
  · refine verifyFrom_iff.mpr fun i e' he' => ?_
    -- up to the new entry the chain is that of the old ones
    have hchain : ∀ i ≤ log.entries.length,
        chainFrom log.key initialChain (log.appendInner e).entries i =
          chainAt log.key log.entries i := by
      intro i hi
      cases i with
      | zero => rfl
      | succ i =>
        simp only [AuditLog.appendInner, chainAt, chainFrom,
          List.getElem?_append_left (Nat.lt_of_succ_le hi)]
    have hkey : (log.appendInner e).key = log.key := rfl
    by_cases hi : i < log.entries.length
    · simp only [AuditLog.appendInner, List.getElem?_append_left hi] at he'
      rw [hkey, hchain i hi.le]
      exact verifyFrom_iff.mp h.verifies i e' he'
    · have hlen : i < (log.appendInner e).entries.length := (List.getElem?_eq_some_iff.mp he').1
      have heq : i = log.entries.length := by
        simp only [AuditLog.appendInner, List.length_append, List.length_singleton] at hlen
        omega
      subst heq
      rw [hkey, hchain _ le_rfl, ← h.chain]
      simp only [AuditLog.appendInner, hlast, Option.some.injEq] at he'
      subst he'
      rfl

/-- Appending events keeps a log valid, and its key. -/
theorem AuditLog.Valid.foldl {log : AuditLog} (h : log.Valid) (events : List AuditEvent) :
    (events.foldl AuditLog.appendInner log).Valid ∧
      (events.foldl AuditLog.appendInner log).key = log.key := by
  induction events generalizing log with
  | nil => exact ⟨h, rfl⟩
  | cons e events ih => exact ih (h.appendInner e)

/-- Every log that was built by appends verifies under its key. -/
theorem AuditLog.verifies_build (key : Bytes 32) (events : List AuditEvent) :
    verifyEntries (AuditLog.build key events).entries key = true := by
  have hnew : (AuditLog.new key).Valid := ⟨rfl, rfl⟩
  obtain ⟨hvalid, hkey⟩ := hnew.foldl events
  have hverifies := hvalid.verifies
  rwa [hkey] at hverifies

/-! ## Tampering -/

/-- What the signatures of a list are over: each entry behind the chain hash before it. -/
def signedPayloads (key : Bytes 32) (es : List AuditEntry) : List (List UInt8) :=
  es.zipIdx.map fun x => payload (chainAt key es x.2) x.1.toAuditEvent

/-- The idealised keyed hash, for a log and a list offered in its place by somebody without the key:
the hash has no collision on what the log hashes, it does not yield the initial chain hash, and a
signature of the offered list that verifies at its place is one that the log made. -/
structure IdealHash (key : Bytes 32) (log offered : List AuditEntry) : Prop where
  /-- No two signed payloads of the log collide. -/
  collisionFree : CollisionFree (kh256 key) (signedPayloads key log)
  /-- No two signatures of the log collide in the chain. -/
  chainFree : CollisionFree (kh256 (derivedKey key)) (log.map fun e => e.signature.val)
  /-- The chain does not return to its initial value. -/
  chainNonzero : ∀ e ∈ log, advanceChain key e.signature ≠ initialChain
  /-- Signatures are not forged. -/
  unforged : ∀ x ∈ offered.zipIdx,
    x.1.signature = signEntry key (chainAt key offered x.2) x.1.toAuditEvent →
      payload (chainAt key offered x.2) x.1.toAuditEvent ∈ signedPayloads key log

variable {log offered : List AuditEntry}

/-- An entry of a list is signed behind its chain hash. -/
theorem mem_signedPayloads {p : List UInt8} :
    p ∈ signedPayloads key es ↔
      ∃ i e, es[i]? = some e ∧ p = payload (chainAt key es i) e.toAuditEvent := by
  simp only [signedPayloads, List.mem_map, Prod.exists, List.mem_zipIdx_iff_getElem?]
  constructor
  · rintro ⟨e, i, he, rfl⟩
    exact ⟨i, e, he, rfl⟩
  · rintro ⟨i, e, he, rfl⟩
    exact ⟨e, i, he, rfl⟩

/-- The chain hash behind entry `i`. -/
theorem chainAt_succ {i : ℕ} {e : AuditEntry} (h : es[i]? = some e) :
    chainAt key es (i + 1) = advanceChain key e.signature := by
  simp only [chainAt, chainFrom, h]

/-- In a log that verifies, the chain hashes at different places are different. -/
theorem IdealHash.chainAt_inj (h : IdealHash key log offered)
    (hlog : verifyEntries log key = true) {i j : ℕ} (hi : i ≤ log.length) (hj : j ≤ log.length)
    (heq : chainAt key log i = chainAt key log j) : i = j := by
  -- the chain hash behind an entry is not the initial one
  have hne : ∀ k, k < log.length → chainAt key log (k + 1) ≠ chainAt key log 0 := by
    intro k hk
    rw [chainAt_succ (List.getElem?_eq_getElem hk)]
    exact h.chainNonzero _ (List.getElem_mem hk)
  induction i generalizing j with
  | zero =>
    cases j with
    | zero => rfl
    | succ j => exact absurd heq.symm (hne j hj)
  | succ i ih =>
    cases j with
    | zero => exact absurd heq (hne i hi)
    | succ j =>
      have hgi := List.getElem?_eq_getElem (l := log) (i := i) hi
      have hgj := List.getElem?_eq_getElem (l := log) (i := j) hj
      rw [chainAt_succ hgi, chainAt_succ hgj] at heq
      -- equal chain hashes come from equal signatures, those from equal payloads
      have hsig : log[i].signature = log[j].signature := by
        refine Bytes.ext_val (h.chainFree _ ?_ _ ?_ heq)
        · exact List.mem_map.mpr ⟨_, List.getElem_mem _, rfl⟩
        · exact List.mem_map.mpr ⟨_, List.getElem_mem _, rfl⟩
      rw [verifyFrom_iff.mp hlog i _ hgi, verifyFrom_iff.mp hlog j _ hgj] at hsig
      have hpay := h.collisionFree _ (mem_signedPayloads.mpr ⟨i, _, hgi, rfl⟩) _
        (mem_signedPayloads.mpr ⟨j, _, hgj, rfl⟩) hsig
      rw [ih (Nat.le_of_succ_le hi) (Nat.le_of_succ_le hj) (Bytes.append_inj hpay).1]

/-- Every entry of a list that verifies has the signature and the signed bytes of the entry of the
log at its place. -/
theorem IdealHash.sameSigned (h : IdealHash key log offered)
    (hlog : verifyEntries log key = true) (hoff : verifyEntries offered key = true) (i : ℕ) :
    ∀ e, offered[i]? = some e → ∃ e', log[i]? = some e' ∧ SameSigned e e' := by
  induction i using Nat.strong_induction_on with
  | _ i ih =>
    intro e he
    have hsig := verifyFrom_iff.mp hoff i e he
    -- up to entry `i` both lists have the same signatures, hence the same chain hash
    have hchain : i ≤ log.length ∧ chainAt key offered i = chainAt key log i := by
      cases i with
      | zero => exact ⟨Nat.zero_le _, rfl⟩
      | succ i =>
        have hi : i < offered.length :=
          (Nat.lt_succ_self i).trans (List.getElem?_eq_some_iff.mp he).1
        have hgi := List.getElem?_eq_getElem hi
        obtain ⟨e', he', hsame, -⟩ := ih i (Nat.lt_succ_self i) _ hgi
        refine ⟨(List.getElem?_eq_some_iff.mp he').1, ?_⟩
        rw [chainAt_succ hgi, chainAt_succ he', hsame]
    have hmem := h.unforged (e, i) (List.mem_zipIdx_iff_getElem?.mpr he) hsig
    obtain ⟨j, e', he', hpay⟩ := mem_signedPayloads.mp hmem
    have hj : j < log.length := (List.getElem?_eq_some_iff.mp he').1
    obtain ⟨hc, hbytes⟩ := Bytes.append_inj hpay
    -- the chain hash in the payload tells which entry of the log it belongs to
    obtain rfl : i = j := h.chainAt_inj hlog hchain.1 hj.le (hchain.2.symm.trans hc)
    refine ⟨e', he', ?_, hbytes⟩
    rw [hsig, verifyFrom_iff.mp hlog i e' he', signEntry, signEntry]
    exact congrArg (kh256 key) hpay

/-- A flagged identity key in front of a timestamp can be read back. -/
theorem identityBytes_append_inj {k k' : Option (Bytes 32)} {x y : List UInt8}
    (h : identityBytes k ++ x = identityBytes k' ++ y) : k = k' ∧ x = y := by
  cases k with
  | none =>
    cases k' with
    | none => exact ⟨rfl, (List.cons.inj h).2⟩
    | some b => simp [identityBytes] at h
  | some a =>
    cases k' with
    | none => simp [identityBytes] at h
    | some b =>
      obtain ⟨rfl, hxy⟩ := Bytes.append_inj (List.cons.inj h).2
      exact ⟨rfl, hxy⟩

/-- A string below `2^32` bytes behind its length can be read back. -/
theorem lengthPrefixed_append_inj {s t x y : List UInt8} (hs : s.length < 2 ^ 32)
    (ht : t.length < 2 ^ 32)
    (h : leBytes 4 s.length ++ s ++ x = leBytes 4 t.length ++ t ++ y) : s = t ∧ x = y := by
  rw [List.append_assoc, List.append_assoc] at h
  obtain ⟨hlen, h⟩ := List.append_inj h (by simp)
  exact List.append_inj h (leBytes_inj hs ht hlen)

/-- For strings below `2^32` bytes, the signed bytes determine every field but one: an absent
capability and an empty one are signed alike. -/
theorem eventBytes_eq_iff {a b : AuditEvent} (ha : a.eventType.length < 2 ^ 32)
    (hb : b.eventType.length < 2 ^ 32) (hac : (a.capability.getD []).length < 2 ^ 32)
    (hbc : (b.capability.getD []).length < 2 ^ 32) :
    eventBytes a = eventBytes b ↔
      a.eventType = b.eventType ∧ a.capability.getD [] = b.capability.getD [] ∧
        a.identityKey = b.identityKey ∧ a.occurredAtMs = b.occurredAtMs := by
  constructor
  · intro h
    simp only [eventBytes, List.append_assoc] at h
    rw [← List.append_assoc, ← List.append_assoc (leBytes 4 b.eventType.length)] at h
    obtain ⟨htype, h⟩ := lengthPrefixed_append_inj ha hb h
    rw [← List.append_assoc, ← List.append_assoc (leBytes 4 (b.capability.getD []).length)] at h
    obtain ⟨hcap, h⟩ := lengthPrefixed_append_inj hac hbc h
    obtain ⟨hid, h⟩ := identityBytes_append_inj h
    have hms := leBytes_inj (n := 8) (UInt64.toNat_lt _) (UInt64.toNat_lt _) h
    exact ⟨htype, hcap, hid, UInt64.toNat_inj.mp hms⟩
  · rintro ⟨htype, hcap, hid, hms⟩
    simp only [eventBytes, htype, hcap, hid, hms]

/-- Verification rejects a list offered in the place of a log exactly if it is not the beginning of
the log, up to changes that leave the signed bytes as they are. -/
theorem verify_rejects_iff (key : Bytes 32) (events : List AuditEvent)
    (offered : List AuditEntry) (h : IdealHash key (AuditLog.build key events).entries offered) :
    verifyEntries offered key = false ↔
      ¬ List.Forall₂ SameSigned offered
        ((AuditLog.build key events).entries.take offered.length) := by
  have hlog := AuditLog.verifies_build key events
  rw [← Bool.not_eq_true, not_iff_not]
  constructor
  · intro hoff
    have hsame := h.sameSigned hlog hoff
    -- An entry beyond the log would be signed without having been appended.
    have hlen : offered.length ≤ (AuditLog.build key events).entries.length := by
      by_contra hlt
      rw [not_le] at hlt
      obtain ⟨e', he', -⟩ := hsame _ _ (List.getElem?_eq_getElem hlt)
      simp at he'
    rw [List.forall₂_iff_get]
    refine ⟨by simp [hlen], fun i hi hi' => ?_⟩
    obtain ⟨e', he', hs⟩ := hsame i _ (List.getElem?_eq_getElem hi)
    have hget : ((AuditLog.build key events).entries.take offered.length).get ⟨i, hi'⟩ = e' := by
      rw [List.get_eq_getElem, List.getElem_take]
      exact (List.getElem?_eq_some_iff.mp he').2
    rw [hget]
    exact hs
  · intro hsame
    rw [verifyEntries, verifyFrom_congr hsame]
    exact verifyFrom_take _ hlog

/-- The key of the sample log. -/
def sampleKey : Bytes 32 := Bytes.fill 32 7

/-- Two events: a grant and the end of the session. -/
def sampleEvents : List AuditEvent :=
  [⟨[103], some [118], some (Bytes.fill 32 2), 1000⟩, ⟨[101], none, none, 1001⟩]

/-- The entries of the sample log. -/
def sampleLog : List AuditEntry := (AuditLog.build sampleKey sampleEvents).entries

/-- Moving the first timestamp of the sample log is detected. -/
theorem verify_rejects_timestamp :
    verifyEntries (sampleLog.modifyHead fun e => { e with occurredAtMs := 999 }) sampleKey =
      false := by
  have hideal : IdealHash sampleKey sampleLog
      (sampleLog.modifyHead fun e => { e with occurredAtMs := 999 }) :=
    ⟨by decide +kernel, by decide +kernel, by decide +kernel, by decide +kernel⟩
  refine (verify_rejects_iff sampleKey sampleEvents _ hideal).mpr ?_
  decide +kernel

/-- Deleting the last entry of the sample log is not detected, nor is writing an empty capability
for an absent one. -/
theorem deleted_last_entry_verifies :
    (IdealHash sampleKey sampleLog sampleLog.dropLast ∧ sampleLog.dropLast ≠ sampleLog ∧
      verifyEntries sampleLog.dropLast sampleKey = true) ∧
    let edited := sampleLog.map fun e => { e with capability := some (e.capability.getD []) }
    IdealHash sampleKey sampleLog edited ∧ edited ≠ sampleLog ∧
      verifyEntries edited sampleKey = true := by
  refine ⟨⟨⟨?_, ?_, ?_, ?_⟩, ?_, ?_⟩, ⟨?_, ?_, ?_, ?_⟩, ?_, ?_⟩
  all_goals decide +kernel

end LowBand.Messaging
