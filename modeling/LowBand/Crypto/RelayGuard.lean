import LowBand.Crypto.NoiseIk
import LowBand.Lib.Run

/-!
# The datagram cipher

`relay_guard.rs` seals each datagram under the traffic key of its direction, with a counter as
nonce, and sends the nonce in front of the ciphertext. `Sealing.wire` is the datagram of one
sealing; `openBytes_eq_some` says that the receiver accepts exactly the datagrams of sealings under
its key, and nothing else about a datagram, in particular not whether it came before.

A run of a cipher seals datagrams and rotates the key. Under one key the counter only grows, and a
key that was rotated away does not come back, so as long as the counter does not wrap, no two
sealings share a key and a nonce: `nodup_sealings`.
-/

namespace LowBand.Crypto

open Lib

/-- `RELAY_GUARD_OVERHEAD_BYTES`: the nonce and the tag. -/
def relayGuardOverheadBytes : ℕ := 28

/-- A sealed datagram. -/
structure RelayPayload where
  /-- The nonce and the ciphertext with its tag. -/
  asBytes : List UInt8
deriving DecidableEq

/-- `DatagramCipher`, without the clock that only `needs_rekey` reads. -/
structure DatagramCipher where
  /-- The traffic key. -/
  key : Bytes 32
  /-- The number of datagrams sealed. -/
  counter : ℕ
deriving DecidableEq

namespace DatagramCipher

/-- A cipher that has sealed nothing. -/
def new (key : Bytes 32) : DatagramCipher := ⟨key, 0⟩

/-- The nonce of the current counter. -/
def nonceBytes (c : DatagramCipher) : Bytes 12 := nonceFromCounter c.counter

variable (A : Aead)

/-- `seal`: seals a plaintext under the next nonce. -/
def sealDatagram (c : DatagramCipher) (plaintext : List UInt8) : RelayPayload × DatagramCipher :=
  let ciphertextWithTag := A.encrypt c.key c.nonceBytes [] plaintext
  (⟨c.nonceBytes.val ++ ciphertextWithTag⟩, { c with counter := (c.counter + 1) % 2 ^ 64 })

/-- `rotate_key`: installs a new key and starts the counter again. -/
def rotateKey (_ : DatagramCipher) (newKey : Bytes 32) : DatagramCipher := ⟨newKey, 0⟩

/-- `open`: the plaintext of a sealed datagram, when its tag verifies. -/
def openPayload (c : DatagramCipher) (payload : RelayPayload) : Option (List UInt8) :=
  if payload.asBytes.length < relayGuardOverheadBytes then none
  else A.decrypt c.key (Bytes.ofList 12 payload.asBytes) [] (payload.asBytes.drop 12)

/-- The plaintext of bytes received off the wire. -/
def openBytes (c : DatagramCipher) (wire : List UInt8) : Option (List UInt8) :=
  c.openPayload A ⟨wire⟩

end DatagramCipher

/-- The datagram of a sealing: the nonce and the ciphertext. -/
def wire (A : Aead) (q : Sealing) : List UInt8 := q.nonce.val ++ A.ciphertext q

namespace DatagramCipher

variable {A : Aead}

/-- The sealing that `sealDatagram` makes. -/
def sealing (c : DatagramCipher) (plaintext : List UInt8) : Sealing :=
  ⟨c.key, c.nonceBytes, [], plaintext⟩

/-- `sealDatagram` returns the datagram of its sealing. -/
theorem sealDatagram_asBytes (c : DatagramCipher) (plaintext : List UInt8) :
    (c.sealDatagram A plaintext).1.asBytes = wire A (c.sealing plaintext) := rfl

/-- A cipher accepts exactly the datagrams of the sealings under its key. -/
theorem openBytes_eq_some {c : DatagramCipher} {w p : List UInt8} :
    c.openBytes A w = some p ↔ ∃ n : Bytes 12, w = wire A ⟨c.key, n, [], p⟩ := by
  unfold openBytes openPayload relayGuardOverheadBytes
  constructor
  · intro h
    split at h
    · simp at h
    · rename_i hlen
      refine ⟨Bytes.ofList 12 w, ?_⟩
      rw [wire, Aead.ciphertext, ← A.decrypt_eq_some.mp h]
      exact (Bytes.ofList_append_drop (by simp at hlen; omega)).symm
  · rintro ⟨n, rfl⟩
    have hlen := A.length_encrypt c.key n [] p
    have hle : ¬ (wire A ⟨c.key, n, [], p⟩).length < 28 := by
      simp only [wire, Aead.ciphertext, List.length_append, Bytes.length_val, hlen]
      omega
    rw [if_neg hle, A.decrypt_eq_some]
    simp only [wire, Bytes.ofList_append, List.drop_left' n.length_val]
    rfl

end DatagramCipher

/-! ## Runs of a cipher -/

/-- Counters below `2^64` have different nonces. -/
theorem nonceFromCounter_inj {i j : ℕ} (hi : i < 2 ^ 64) (hj : j < 2 ^ 64)
    (h : nonceFromCounter i = nonceFromCounter j) : i = j := by
  have hval : [0, 0, 0, 0] ++ leBytes 8 i = [0, 0, 0, 0] ++ leBytes 8 j := congrArg Bytes.val h
  exact leBytes_inj hi hj (List.append_cancel_left hval)

/-- A call that changes a cipher. -/
inductive CipherCall where
  /-- `seal`. -/
  | sealDatagram (plaintext : List UInt8)
  /-- `rotate_key`. -/
  | rotateKey (newKey : Bytes 32)

/-- The keys that the calls of a run install. -/
def rotatedKeys : List CipherCall → List (Bytes 32) :=
  List.filterMap fun
    | .rotateKey newKey => some newKey
    | .sealDatagram _ => none

namespace DatagramCipher

variable (A : Aead)

/-- One call, with the sealing that it makes. -/
def call : Machine DatagramCipher CipherCall Sealing
  | c, .sealDatagram plaintext => ([c.sealing plaintext], (c.sealDatagram A plaintext).2)
  | c, .rotateKey newKey => ([], c.rotateKey newKey)

/-- The sealings that a run makes. -/
def sealings (c : DatagramCipher) (calls : List CipherCall) : List Sealing :=
  (call A).emitted c calls

/-- How many of the sealings are under a key. -/
def countUnder (key : Bytes 32) (qs : List Sealing) : ℕ := qs.countP (·.key = key)

variable {A}

/-- The first sealing, and those of the calls after it. -/
theorem sealings_seal (c : DatagramCipher) (plaintext : List UInt8) (calls : List CipherCall) :
    c.sealings A (.sealDatagram plaintext :: calls) =
      c.sealing plaintext :: (c.sealDatagram A plaintext).2.sealings A calls := rfl

/-- A rotation makes no sealing. -/
theorem sealings_rotate (c : DatagramCipher) (newKey : Bytes 32) (calls : List CipherCall) :
    c.sealings A (.rotateKey newKey :: calls) = (c.rotateKey newKey).sealings A calls := rfl

/-- Where the sealings of a run have their keys and nonces from: the current key with a counter not
used yet, or a key installed later. -/
def FromRun (c : DatagramCipher) (calls : List CipherCall) (q : Sealing) : Prop :=
  (q.key = c.key ∧ ∃ i, c.counter ≤ i ∧ i < 2 ^ 64 ∧ q.nonce = nonceFromCounter i) ∨
    q.key ∈ rotatedKeys calls

/-- The sealings made after the counter went on share no key and nonce with the one before. -/
theorem FromRun.not_first {c c' : DatagramCipher} {calls : List CipherCall} {q : Sealing}
    (h : c'.FromRun calls q) (hlt : c.counter < c'.counter) (hkey : c.key ∉ rotatedKeys calls) :
    ¬ (q.key = c.key ∧ q.nonce = c.nonceBytes) := by
  rintro ⟨hqkey, hqnonce⟩
  rcases h with ⟨-, i, hi, hi64, hnonce⟩ | hrot
  · -- the nonces of later counters are others
    have heq : i = c.counter := nonceFromCounter_inj hi64 (by omega) (hnonce.symm.trans hqnonce)
    omega
  · -- a key installed later is another
    rw [hqkey] at hrot
    exact hkey hrot

/-- A sealing of the calls after a rotation is one of the run. -/
theorem FromRun.of_rotate {c : DatagramCipher} {newKey : Bytes 32} {calls : List CipherCall}
    {q : Sealing} (h : (c.rotateKey newKey).FromRun calls q) :
    c.FromRun (.rotateKey newKey :: calls) q := by
  rcases h with ⟨hkey, -⟩ | hkey
  · exact .inr (List.mem_cons.mpr (.inl hkey))
  · exact .inr (List.mem_cons_of_mem _ hkey)

/-- A sealing of the calls after the counter went on under the same key is one of the run. -/
theorem FromRun.of_seal {c c' : DatagramCipher} {plaintext : List UInt8} {calls : List CipherCall}
    {q : Sealing} (h : c'.FromRun calls q) (hkey : c'.key = c.key)
    (hle : c.counter ≤ c'.counter) : c.FromRun (.sealDatagram plaintext :: calls) q := by
  rcases h with ⟨hqkey, i, hi, hrest⟩ | hrot
  · exact .inl ⟨hqkey.trans hkey, i, hle.trans hi, hrest⟩
  · exact .inr hrot

/-- When the keys of a run differ, and the counter wraps under none of them, no two sealings share
a key and a nonce. -/
theorem nodup_sealings_from {calls : List CipherCall} {c : DatagramCipher}
    (hkeys : (c.key :: rotatedKeys calls).Nodup)
    (hcur : c.counter + countUnder c.key (c.sealings A calls) < 2 ^ 64)
    (hlater : ∀ k ∈ rotatedKeys calls, countUnder k (c.sealings A calls) < 2 ^ 64) :
    ((c.sealings A calls).map fun q => (q.key, q.nonce)).Nodup ∧
      ∀ q ∈ c.sealings A calls, c.FromRun calls q := by
  -- By induction on the calls, from any counter.
  induction calls generalizing c with
  | nil => exact ⟨List.nodup_nil, fun q hq => absurd hq List.not_mem_nil⟩
  | cons call calls ih =>
    cases call with
    | rotateKey newKey =>
      rw [sealings_rotate] at hcur hlater ⊢
      have hzero := hlater newKey List.mem_cons_self
      obtain ⟨hnodup, hfrom⟩ := @ih (c.rotateKey newKey) (List.nodup_cons.mp hkeys).2
        (by simpa [rotateKey] using hzero)
        (fun k hk => hlater k (List.mem_cons_of_mem _ hk))
      exact ⟨hnodup, fun q hq => (hfrom q hq).of_rotate⟩
    | sealDatagram plaintext =>
      rw [sealings_seal] at hcur hlater ⊢
      set c' := (c.sealDatagram A plaintext).2 with hc'
      have hkey : c'.key = c.key := rfl
      have hcount : countUnder c.key (c.sealing plaintext :: c'.sealings A calls) =
          countUnder c.key (c'.sealings A calls) + 1 := List.countP_cons_of_pos (by simp [sealing])
      have hcounter : c'.counter = c.counter + 1 := Nat.mod_eq_of_lt (by omega)
      have hle : ∀ k, countUnder k (c'.sealings A calls) ≤
          countUnder k (c.sealing plaintext :: c'.sealings A calls) := by
        intro k
        exact List.Sublist.countP_le (List.sublist_cons_self _ _)
      obtain ⟨hnodup, hfrom⟩ := @ih c' hkeys (by rw [hkey, hcounter]; omega)
        (fun k hk => (hle k).trans_lt (hlater k hk))
      constructor
      · rw [List.map_cons, List.nodup_cons]
        refine ⟨?_, hnodup⟩
        intro hmem
        obtain ⟨q, hq, heq⟩ := List.mem_map.mp hmem
        exact (hfrom q hq).not_first (by omega) (List.nodup_cons.mp hkeys).1 (Prod.mk.inj heq)
      · intro q hq
        rcases List.mem_cons.mp hq with rfl | hq
        · exact .inl ⟨rfl, c.counter, le_refl _, by omega, rfl⟩
        · exact (hfrom q hq).of_seal hkey (by omega)

/-- For a new cipher: when the keys of a run differ and fewer than `2^64` datagrams are sealed under
each, no two sealings share a key and a nonce. -/
theorem nodup_sealings {key : Bytes 32} {calls : List CipherCall}
    (hkeys : (key :: rotatedKeys calls).Nodup)
    (hcount : ∀ k, countUnder k ((new key).sealings A calls) < 2 ^ 64) :
    (((new key).sealings A calls).map fun q => (q.key, q.nonce)).Nodup := by
  refine (nodup_sealings_from hkeys ?_ fun k _ => hcount k).1
  simpa [new] using hcount key

end DatagramCipher

end LowBand.Crypto
