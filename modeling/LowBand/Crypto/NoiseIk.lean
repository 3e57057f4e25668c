import LowBand.Lib.Result
import LowBand.Lib.Symmetric

/-!
# The Noise-IK handshake keyed with the session code

`noise_ik.rs` runs `Noise_IK_25519_ChaChaPoly_SHA256` with the session code as prologue. The
primitives of the external crates are the fields of a `Suite`, with the two laws that agreement
needs: Diffie-Hellman commutes, and decryption accepts exactly what was encrypted. The random
ephemeral secrets are arguments of the functions that draw them. Session codes are their UTF-8
bytes.

`receiveMessage1_eq_ok` and `receiveMessage2_eq_ok` say which messages are accepted, in terms of
the states at which the ciphertexts are decrypted. `receiveMessage1_new` and
`receiveMessage2_sendMessage2` are the honest run: the two sides go through the same states, because
each exchange gives both the same value.

A `Handshake` is a run in which the network delivers arbitrary bytes. Nobody but the two sides
encrypts in it, and the hash has no collision among the strings it is given (`Handshake.Ideal`). A
ciphertext that a side accepts is then one of at most three sealings; lengths and positions in the
transcript tell which, and equal associated data means equal transcripts (`chain_inj`), which bind
the session code, the responder's key and every byte of the messages.
-/

namespace LowBand.Crypto

open Lib

/-- The primitives that the handshake takes from the `x25519-dalek`, `sha2`, `hkdf` and
`chacha20poly1305` crates. -/
structure Suite where
  /-- `x25519`: a scalar times a point. -/
  x25519 : Bytes 32 → Bytes 32 → Bytes 32
  /-- `X25519_BASEPOINT_BYTES`. -/
  basepoint : Bytes 32
  /-- Diffie-Hellman is commutative. -/
  x25519_comm : ∀ a b, x25519 a (x25519 b basepoint) = x25519 b (x25519 a basepoint)
  /-- `Sha256`. -/
  sha256 : List UInt8 → Bytes 32
  /-- `Hkdf::<Sha256>` with a salt and the input key material, expanded with an empty info to 64
  bytes, in two halves. -/
  hkdf : Bytes 32 → List UInt8 → Bytes 32 × Bytes 32
  /-- `ChaCha20Poly1305`. -/
  aead : Aead

/-- `PROTOCOL_NAME`, the ASCII bytes of `Noise_IK_25519_ChaChaPoly_SHA256`. -/
def protocolName : Bytes 32 :=
  ⟨[78, 111, 105, 115, 101, 95, 73, 75, 95, 50, 53, 53, 49, 57, 95, 67, 104, 97, 67, 104, 97, 80,
    111, 108, 121, 95, 83, 72, 65, 50, 53, 54], rfl⟩

/-- `MSG1_LEN`. -/
def msg1Len : ℕ := 96

/-- `MSG2_LEN`. -/
def msg2Len : ℕ := 48

variable (S : Suite)

/-- The X25519 public key of a private scalar. -/
def pubFromPriv (privKey : Bytes 32) : Bytes 32 := S.x25519 privKey S.basepoint

/-- An X25519 exchange. -/
def dh (myPriv theirPub : Bytes 32) : Bytes 32 := S.x25519 myPriv theirPub

/-- A long-term key pair; `generate` is the only constructor of the source, so the public key is
that of the secret. -/
structure StaticKeypair where
  /-- The private scalar. -/
  secret : Bytes 32
  /-- The public key. -/
  publicKeyBytes : Bytes 32
  /-- The public key is derived from the secret. -/
  public_eq : publicKeyBytes = pubFromPriv S secret

variable {S} in
/-- The exchange of a static key with a peer's public key. -/
def StaticKeypair.dh (kp : StaticKeypair S) (peerPub : Bytes 32) : Bytes 32 :=
  Crypto.dh S kp.secret peerPub

/-- `HandshakeError`. -/
inductive HandshakeError where
  | decryptionFailed
  | badMessageLength (expected got : ℕ)
deriving DecidableEq

/-- The two traffic keys of a session. -/
structure TrafficKeys where
  /-- The key of the datagrams from the initiator. -/
  initiatorToResponder : Bytes 32
  /-- The key of the datagrams from the responder. -/
  responderToInitiator : Bytes 32
deriving DecidableEq

/-- The key a peer encrypts with. -/
def TrafficKeys.sendKey (t : TrafficKeys) (isInitiator : Bool) : Bytes 32 :=
  if isInitiator then t.initiatorToResponder else t.responderToInitiator

/-- The key a peer decrypts with. -/
def TrafficKeys.recvKey (t : TrafficKeys) (isInitiator : Bool) : Bytes 32 :=
  if isInitiator then t.responderToInitiator else t.initiatorToResponder

/-- What a completed handshake yields. -/
structure HandshakeResult where
  /-- The traffic keys. -/
  trafficKeys : TrafficKeys
  /-- The handshake hash at the end. -/
  transcriptHash : Bytes 32
  /-- The static public key of the other side. -/
  remoteStaticPubkey : Bytes 32
  /-- Whether this side was the initiator. -/
  isInitiator : Bool
deriving DecidableEq

/-! ## The symmetric state -/

/-- `SymmetricState`. -/
structure SymmetricState where
  /-- The handshake hash. -/
  h : Bytes 32
  /-- The chaining key. -/
  ck : Bytes 32
  /-- The AEAD key, absent until the first `mixKey`. -/
  k : Option (Bytes 32)
  /-- The nonce counter, reset by `mixKey`. -/
  n : ℕ
deriving DecidableEq

/-- The 12-byte nonce of a counter: four zero bytes and the counter in little-endian order. -/
def nonceFromCounter (n : ℕ) : Bytes 12 := ⟨[0, 0, 0, 0] ++ leBytes 8 n, by simp⟩

namespace SymmetricState

/-- The state before the first token. -/
def new : SymmetricState := ⟨protocolName, protocolName, none, 0⟩

variable (st : SymmetricState)

/-- Mixes data into the handshake hash. -/
def mixHash (data : List UInt8) : SymmetricState := { st with h := S.sha256 (st.h.val ++ data) }

/-- Advances the chaining key and sets a fresh AEAD key. -/
def mixKey (ikm : Bytes 32) : SymmetricState :=
  let okm := S.hkdf st.ck ikm.val
  { st with ck := okm.1, k := some okm.2, n := 0 }

/-- Encrypts with the handshake hash as associated data and mixes the ciphertext in; without a key
the plaintext passes unchanged. -/
def encryptAndHash (plaintext : List UInt8) : List UInt8 × SymmetricState :=
  match st.k with
  | some k =>
    let ciphertext := S.aead.encrypt k (nonceFromCounter st.n) st.h.val plaintext
    (ciphertext, { st with n := st.n + 1 }.mixHash S ciphertext)
  | none => (plaintext, st.mixHash S plaintext)

/-- Decrypts with the handshake hash as associated data and mixes the ciphertext in. -/
def decryptAndHash (ciphertext : List UInt8) :
    Except HandshakeError (List UInt8 × SymmetricState) :=
  match st.k with
  | some k =>
    match S.aead.decrypt k (nonceFromCounter st.n) st.h.val ciphertext with
    | some plaintext => .ok (plaintext, { st with n := st.n + 1 }.mixHash S ciphertext)
    | none => .error .decryptionFailed
  | none => .ok (ciphertext, st.mixHash S ciphertext)

/-- The two traffic keys of the final chaining key. -/
def split : Bytes 32 × Bytes 32 := S.hkdf st.ck []

end SymmetricState

/-! ## The two sides -/

/-- The initiator between message 1 and message 2. -/
structure NoiseIkInitiator where
  /-- The symmetric state. -/
  state : SymmetricState
  /-- The ephemeral secret. -/
  eSecret : Bytes 32
  /-- The responder's static public key. -/
  remoteSPub : Bytes 32
deriving DecidableEq

/-- The responder between message 1 and message 2. -/
structure NoiseIkResponder where
  /-- The symmetric state. -/
  state : SymmetricState
  /-- The initiator's ephemeral public key. -/
  initEPub : Bytes 32
  /-- The initiator's static public key. -/
  initSPub : Bytes 32
deriving DecidableEq

variable {S}

/-- The initiator's state and message 1, for the ephemeral secret `eSecret`. -/
def NoiseIkInitiator.new (localStatic : StaticKeypair S) (remoteStaticPubkey : Bytes 32)
    (sessionCode : List UInt8) (eSecret : Bytes 32) : NoiseIkInitiator × List UInt8 :=
  let state := SymmetricState.new
  let state := state.mixHash S sessionCode
  let state := state.mixHash S remoteStaticPubkey.val
  let ePub := pubFromPriv S eSecret
  -- `e`
  let state := state.mixHash S ePub.val
  -- `es`
  let state := state.mixKey S (dh S eSecret remoteStaticPubkey)
  -- `s`
  let (encS, state) := state.encryptAndHash S localStatic.publicKeyBytes.val
  -- `ss`
  let state := state.mixKey S (localStatic.dh remoteStaticPubkey)
  let (encPayload, state) := state.encryptAndHash S []
  (⟨state, eSecret, remoteStaticPubkey⟩, ePub.val ++ encS ++ encPayload)

/-- The initiator's end of the handshake, on the message 2 it received. -/
def NoiseIkInitiator.receiveMessage2 (i : NoiseIkInitiator) (localStatic : StaticKeypair S)
    (msg2 : List UInt8) : Except HandshakeError HandshakeResult :=
  if msg2.length ≠ msg2Len then .error (.badMessageLength msg2Len msg2.length) else do
    let respEPub := Bytes.ofList 32 msg2
    -- `e`
    let state := i.state.mixHash S respEPub.val
    -- `ee`
    let state := state.mixKey S (dh S i.eSecret respEPub)
    -- `se`
    let state := state.mixKey S (localStatic.dh respEPub)
    let (_, state) ← state.decryptAndHash S (msg2.drop 32)
    let (k1, k2) := state.split S
    return ⟨⟨k1, k2⟩, state.h, i.remoteSPub, true⟩

/-- The responder's state after the message 1 it received. -/
def NoiseIkResponder.receiveMessage1 (localStatic : StaticKeypair S) (sessionCode : List UInt8)
    (msg1 : List UInt8) : Except HandshakeError NoiseIkResponder :=
  if msg1.length ≠ msg1Len then .error (.badMessageLength msg1Len msg1.length) else do
    let state := SymmetricState.new
    let state := state.mixHash S sessionCode
    let state := state.mixHash S localStatic.publicKeyBytes.val
    let initEPub := Bytes.ofList 32 msg1
    -- `e`
    let state := state.mixHash S initEPub.val
    -- `es`
    let state := state.mixKey S (localStatic.dh initEPub)
    -- `s`
    let (initSRaw, state) ← state.decryptAndHash S ((msg1.take 80).drop 32)
    match Bytes.tryFrom 32 initSRaw with
    | none => .error .decryptionFailed
    | some initSPub =>
      -- `ss`
      let state := state.mixKey S (localStatic.dh initSPub)
      let (_, state) ← state.decryptAndHash S (msg1.drop 80)
      return ⟨state, initEPub, initSPub⟩

variable (S) in
/-- The responder's end of the handshake and message 2, for the ephemeral secret `eSecret`. -/
def NoiseIkResponder.sendMessage2 (r : NoiseIkResponder) (eSecret : Bytes 32) :
    HandshakeResult × List UInt8 :=
  let ePub := pubFromPriv S eSecret
  -- `e`
  let state := r.state.mixHash S ePub.val
  -- `ee`
  let state := state.mixKey S (dh S eSecret r.initEPub)
  -- `se`
  let state := state.mixKey S (dh S eSecret r.initSPub)
  let (encPayload, state) := state.encryptAndHash S []
  let (k1, k2) := state.split S
  (⟨⟨k1, k2⟩, state.h, r.initSPub, false⟩, ePub.val ++ encPayload)

/-! ## What the messages are and when they are accepted

The states at which the two sides encrypt and decrypt are those of the mixed data and of the
Diffie-Hellman results alone, whichever side computed them. -/

namespace SymmetricState

variable (S)

/-- The state at the token `s` of message 1, where `es` is the exchange made at `e`. -/
def afterE (code : List UInt8) (respS e es : Bytes 32) : SymmetricState :=
  (((new.mixHash S code).mixHash S respS.val).mixHash S e.val).mixKey S es

/-- The state after a ciphertext was encrypted or decrypted at `st`. -/
def afterCiphertext (st : SymmetricState) (c : List UInt8) : SymmetricState :=
  { st with n := st.n + 1 }.mixHash S c

/-- The state at the payload of message 1, after the encrypted static key `encS`. -/
def afterS (st : SymmetricState) (encS : List UInt8) (ss : Bytes 32) : SymmetricState :=
  (st.afterCiphertext S encS).mixKey S ss

/-- The state at the payload of message 2, from the state at the end of message 1. -/
def afterE2 (st : SymmetricState) (e ee se : Bytes 32) : SymmetricState :=
  ((st.mixHash S e.val).mixKey S ee).mixKey S se

/-- The ciphertext of `p` at a state. -/
def encrypt (st : SymmetricState) (p : List UInt8) : List UInt8 := (st.encryptAndHash S p).1

/-- The sealing that `encryptAndHash` makes of `p`, none while there is no key. -/
def seals (st : SymmetricState) (p : List UInt8) : List Sealing :=
  match st.k with
  | some k => [⟨k, nonceFromCounter st.n, st.h.val, p⟩]
  | none => []

/-- The plaintext of `c` at a state. -/
def decrypt (st : SymmetricState) (c : List UInt8) : Option (List UInt8) :=
  match st.k with
  | some k => S.aead.decrypt k (nonceFromCounter st.n) st.h.val c
  | none => some c

/-- Ciphertext integrity at the decryption of `c` at a state. -/
def Authentic (log : List Sealing) (st : SymmetricState) (c : List UInt8) : Prop :=
  ∀ k ∈ st.k, S.aead.Authentic log k (nonceFromCounter st.n) st.h.val c

/-- Whether a ciphertext is authentic can be decided from the log. -/
instance (log : List Sealing) (st : SymmetricState) (c : List UInt8) :
    Decidable (Authentic S log st c) :=
  inferInstanceAs
    (Decidable (∀ k ∈ st.k, S.aead.Authentic log k (nonceFromCounter st.n) st.h.val c))

variable {S}

/-- With a key, `decryptAndHash` succeeds exactly when the decryption does. -/
theorem decryptAndHash_eq_ok {st st' : SymmetricState} {k : Bytes 32} {c p : List UInt8}
    (hk : st.k = some k) :
    st.decryptAndHash S c = .ok (p, st') ↔
      st.decrypt S c = some p ∧ st' = st.afterCiphertext S c := by
  simp only [decryptAndHash, decrypt, hk]
  cases S.aead.decrypt k (nonceFromCounter st.n) st.h.val c with
  | none => simp
  | some q =>
    simp only [Except.ok.injEq, Prod.mk.injEq, Option.some.injEq, afterCiphertext, hk]
    exact and_congr_right fun _ => eq_comm

end SymmetricState

open SymmetricState

/-- Message 1 and the state it leaves, in terms of the states it encrypts at. -/
theorem NoiseIkInitiator.new_eq (i : StaticKeypair S) (rs : Bytes 32) (code : List UInt8)
    (e : Bytes 32) :
    NoiseIkInitiator.new i rs code e =
      let st := afterE S code rs (pubFromPriv S e) (dh S e rs)
      let encS := st.encrypt S i.publicKeyBytes.val
      let st' := st.afterS S encS (i.dh rs)
      let encPayload := st'.encrypt S []
      (⟨st'.afterCiphertext S encPayload, e, rs⟩, (pubFromPriv S e).val ++ encS ++ encPayload) :=
  rfl

/-- Message 2 and the responder's result, in terms of the state it encrypts at. -/
theorem NoiseIkResponder.sendMessage2_eq (r : NoiseIkResponder) (e : Bytes 32) :
    r.sendMessage2 S e =
      let st := r.state.afterE2 S (pubFromPriv S e) (dh S e r.initEPub) (dh S e r.initSPub)
      let encPayload := st.encrypt S []
      let st' := st.afterCiphertext S encPayload
      (⟨⟨(st'.split S).1, (st'.split S).2⟩, st'.h, r.initSPub, false⟩,
        (pubFromPriv S e).val ++ encPayload) :=
  rfl

/-- The responder accepts a message 1 of the right length whose two ciphertexts decrypt, the first
one to a public key. -/
theorem NoiseIkResponder.receiveMessage1_eq_ok {kp : StaticKeypair S} {code m : List UInt8}
    {r : NoiseIkResponder} :
    NoiseIkResponder.receiveMessage1 kp code m = .ok r ↔
      m.length = msg1Len ∧ ∃ (s : Bytes 32) (p : List UInt8),
        let e := Bytes.ofList 32 m
        let st := afterE S code kp.publicKeyBytes e (kp.dh e)
        let st' := st.afterS S ((m.take 80).drop 32) (kp.dh s)
        st.decrypt S ((m.take 80).drop 32) = some s.val ∧ st'.decrypt S (m.drop 80) = some p ∧
          r = ⟨st'.afterCiphertext S (m.drop 80), e, s⟩ := by
  unfold receiveMessage1
  by_cases hlen : m.length = msg1Len
  · -- Both directions follow the two decryptions in order.
    simp only [hlen, ne_eq, not_true_eq_false, if_false, true_and, bind_eq_ok, Prod.exists]
    constructor
    · rintro ⟨raw, st, hdec, h⟩
      obtain ⟨hraw, rfl⟩ := (decryptAndHash_eq_ok rfl).mp hdec
      cases hs : Bytes.tryFrom 32 raw with
      | none => simp [hs] at h
      | some s =>
        obtain rfl := Bytes.tryFrom_eq_some.mp hs
        simp only [hs, bind_eq_ok, Prod.exists] at h
        obtain ⟨p, st, hdec', h⟩ := h
        obtain ⟨hp, rfl⟩ := (decryptAndHash_eq_ok rfl).mp hdec'
        exact ⟨s, p, hraw, hp, (Except.ok.inj h).symm⟩
    · rintro ⟨s, p, hs, hp, rfl⟩
      refine ⟨_, _, (decryptAndHash_eq_ok rfl).mpr ⟨hs, rfl⟩, ?_⟩
      simp only [Bytes.tryFrom_eq_some.mpr rfl, bind_eq_ok, Prod.exists]
      exact ⟨_, _, (decryptAndHash_eq_ok rfl).mpr ⟨hp, rfl⟩, rfl⟩
  · simp [hlen]

/-- The initiator accepts a message 2 of the right length whose ciphertext decrypts. -/
theorem NoiseIkInitiator.receiveMessage2_eq_ok {i : NoiseIkInitiator} {kp : StaticKeypair S}
    {m : List UInt8} {res : HandshakeResult} :
    i.receiveMessage2 kp m = .ok res ↔
      m.length = msg2Len ∧ ∃ p : List UInt8,
        let e := Bytes.ofList 32 m
        let st := i.state.afterE2 S e (dh S i.eSecret e) (kp.dh e)
        let st' := st.afterCiphertext S (m.drop 32)
        st.decrypt S (m.drop 32) = some p ∧
          res = ⟨⟨(st'.split S).1, (st'.split S).2⟩, st'.h, i.remoteSPub, true⟩ := by
  unfold receiveMessage2
  by_cases hlen : m.length = msg2Len
  · simp only [hlen, ne_eq, not_true_eq_false, if_false, true_and, bind_eq_ok, Prod.exists]
    constructor
    · rintro ⟨p, st, hdec, h⟩
      obtain ⟨hp, rfl⟩ := (decryptAndHash_eq_ok rfl).mp hdec
      exact ⟨p, hp, (Except.ok.inj h).symm⟩
    · rintro ⟨p, hp, rfl⟩
      exact ⟨p, _, (decryptAndHash_eq_ok rfl).mpr ⟨hp, rfl⟩, rfl⟩
  · simp [hlen]

/-! ## The honest run -/

/-- Both sides of an exchange between a static and an ephemeral key compute the same value. -/
theorem StaticKeypair.dh_pubFromPriv (kp : StaticKeypair S) (e : Bytes 32) :
    kp.dh (pubFromPriv S e) = Crypto.dh S e kp.publicKeyBytes := by
  rw [kp.public_eq]
  exact S.x25519_comm kp.secret e

/-- With a key, the plaintext of an encryption at a state is what was encrypted. -/
theorem SymmetricState.decrypt_encrypt {st : SymmetricState} {k : Bytes 32} (hk : st.k = some k)
    (p : List UInt8) : st.decrypt S (st.encrypt S p) = some p := by
  simp [decrypt, encrypt, encryptAndHash, hk]

/-- With a key, a ciphertext is 16 bytes longer than its plaintext. -/
theorem SymmetricState.length_encrypt {st : SymmetricState} {k : Bytes 32} (hk : st.k = some k)
    (p : List UInt8) : (st.encrypt S p).length = p.length + 16 := by
  simp [encrypt, encryptAndHash, hk, S.aead.length_encrypt]

/-- Message 1 has 96 bytes. -/
theorem length_new (i : StaticKeypair S) (rs : Bytes 32) (code : List UInt8) (e : Bytes 32) :
    (NoiseIkInitiator.new i rs code e).2.length = msg1Len := by
  rw [NoiseIkInitiator.new_eq]
  simp only [List.length_append, Bytes.length_val]
  rw [length_encrypt rfl, length_encrypt rfl, Bytes.length_val]
  rfl

/-- The responder accepts the message 1 that an initiator built for its key and code, is left in
the initiator's state, and has learnt the initiator's keys. -/
theorem receiveMessage1_new (i r : StaticKeypair S) (code : List UInt8) (e : Bytes 32) :
    let new := NoiseIkInitiator.new i r.publicKeyBytes code e
    NoiseIkResponder.receiveMessage1 r code new.2 =
      .ok ⟨new.1.state, pubFromPriv S e, i.publicKeyBytes⟩ := by
  simp only [NoiseIkInitiator.new_eq]
  set st := afterE S code r.publicKeyBytes (pubFromPriv S e) (dh S e r.publicKeyBytes) with hst
  set encS := st.encrypt S i.publicKeyBytes.val with hencS
  set st' := st.afterS S encS (i.dh r.publicKeyBytes) with hst'
  have hlenS : encS.length = 48 := by
    rw [hencS, length_encrypt rfl, Bytes.length_val]
  have hss : r.dh i.publicKeyBytes = i.dh r.publicKeyBytes := by
    rw [i.public_eq, StaticKeypair.dh_pubFromPriv]
    rfl
  rw [NoiseIkResponder.receiveMessage1_eq_ok]
  refine ⟨length_new i r.publicKeyBytes code e, i.publicKeyBytes, [], ?_⟩
  -- the responder cuts the message where the initiator joined it
  have he : Bytes.ofList 32 ((pubFromPriv S e).val ++ encS ++ st'.encrypt S []) =
      pubFromPriv S e := by
    rw [List.append_assoc, Bytes.ofList_append]
  have h80 : ((pubFromPriv S e).val ++ encS).length = 80 := by simp [hlenS]
  have htake : ((pubFromPriv S e).val ++ encS ++ st'.encrypt S []).take 80 =
      (pubFromPriv S e).val ++ encS := List.take_left' h80
  have hdrop : ((pubFromPriv S e).val ++ encS).drop 32 = encS :=
    List.drop_left' (Bytes.length_val _)
  have hdrop80 : ((pubFromPriv S e).val ++ encS ++ st'.encrypt S []).drop 80 =
      st'.encrypt S [] := List.drop_left' h80
  simp only [he, htake, hdrop, hdrop80, StaticKeypair.dh_pubFromPriv, hss]
  rw [← hst, ← hst']
  exact ⟨decrypt_encrypt rfl _, decrypt_encrypt rfl _, rfl⟩

/-- The initiator accepts the message 2 that the responder it shares its state with sent, with the
responder's keys and transcript hash. -/
theorem receiveMessage2_sendMessage2 (i : StaticKeypair S) (st : SymmetricState)
    (e re rs : Bytes 32) :
    let sent :=
      (NoiseIkResponder.mk st (pubFromPriv S e) i.publicKeyBytes).sendMessage2 S re
    (NoiseIkInitiator.mk st e rs).receiveMessage2 i sent.2 =
      .ok { sent.1 with remoteStaticPubkey := rs, isInitiator := true } := by
  simp only [NoiseIkResponder.sendMessage2_eq]
  -- Both ends compute the same shared secret of the two ephemeral keys.
  have hee : dh S re (pubFromPriv S e) = dh S e (pubFromPriv S re) := S.x25519_comm re e
  rw [hee, ← StaticKeypair.dh_pubFromPriv]
  set st' := st.afterE2 S (pubFromPriv S re) (dh S e (pubFromPriv S re))
    (i.dh (pubFromPriv S re)) with hst'
  have hlenP : (st'.encrypt S []).length = 16 := by
    rw [length_encrypt rfl, List.length_nil]
  rw [NoiseIkInitiator.receiveMessage2_eq_ok]
  refine ⟨by simp [hlenP, msg2Len], [], ?_⟩
  -- Behind the ephemeral key stands the sealed empty payload.
  have hdrop : ((pubFromPriv S re).val ++ st'.encrypt S []).drop 32 = st'.encrypt S [] :=
    List.drop_left' (Bytes.length_val _)
  simp only [Bytes.ofList_append, hdrop]
  rw [← hst']
  exact ⟨decrypt_encrypt rfl _, rfl⟩

/-! ## A run with an active network -/

/-- One handshake between an initiator and a responder, over a network that delivers whatever it
likes in the place of the two messages. -/
structure Handshake (S : Suite) where
  /-- The initiator's static key pair. -/
  initStatic : StaticKeypair S
  /-- The responder's static key pair. -/
  respStatic : StaticKeypair S
  /-- The initiator's ephemeral secret. -/
  initE : Bytes 32
  /-- The responder's ephemeral secret. -/
  respE : Bytes 32
  /-- The session code of the initiator. -/
  initCode : List UInt8
  /-- The session code of the responder. -/
  respCode : List UInt8
  /-- The responder static key that the initiator was built for. -/
  target : Bytes 32
  /-- What the network delivers to the responder. -/
  delivered1 : List UInt8
  /-- What the network delivers to the initiator. -/
  delivered2 : List UInt8

namespace Handshake

variable (H : Handshake S)

/-- The initiator and the message 1 it sends. -/
def initiator : NoiseIkInitiator × List UInt8 :=
  NoiseIkInitiator.new H.initStatic H.target H.initCode H.initE

/-- The responder, after what the network delivered to it. -/
def responder : Except HandshakeError NoiseIkResponder :=
  NoiseIkResponder.receiveMessage1 H.respStatic H.respCode H.delivered1

/-- The responder's result and the message 2 it sends. -/
def respResult : Except HandshakeError (HandshakeResult × List UInt8) :=
  (fun r => r.sendMessage2 S H.respE) <$> H.responder

/-- The initiator's result, after what the network delivered to it. -/
def initResult : Except HandshakeError HandshakeResult :=
  H.initiator.1.receiveMessage2 H.initStatic H.delivered2

/-! ### The sealings, the decryptions and the hashes of the run -/

/-- The initiator's state where it encrypts its static key. -/
def initStateS : SymmetricState :=
  afterE S H.initCode H.target (pubFromPriv S H.initE) (dh S H.initE H.target)

/-- The encrypted static key of message 1. -/
def encS : List UInt8 := H.initStateS.encrypt S H.initStatic.publicKeyBytes.val

/-- The initiator's state where it encrypts the payload of message 1. -/
def initStatePayload : SymmetricState :=
  H.initStateS.afterS S H.encS (H.initStatic.dh H.target)

/-- The encrypted payload of message 1. -/
def encPayload : List UInt8 := H.initStatePayload.encrypt S []

/-- The initiator's state where it decrypts the payload of message 2. -/
def initStateFinal : SymmetricState :=
  let e := Bytes.ofList 32 H.delivered2
  H.initiator.1.state.afterE2 S e (dh S H.initE e) (H.initStatic.dh e)

/-- The responder's state where it decrypts the initiator's static key. -/
def respStateS : SymmetricState :=
  let e := Bytes.ofList 32 H.delivered1
  afterE S H.respCode H.respStatic.publicKeyBytes e (H.respStatic.dh e)

/-- The responder's state where it decrypts the payload of message 1, after the static key `s`. -/
def respStatePayload (s : Bytes 32) : SymmetricState :=
  H.respStateS.afterS S ((H.delivered1.take 80).drop 32) (H.respStatic.dh s)

/-- The sealings of message 1. -/
def initSeals : List Sealing :=
  H.initStateS.seals H.initStatic.publicKeyBytes.val ++ H.initStatePayload.seals []

/-- The sealing of message 2, when the responder sends one. -/
def respSeals : List Sealing :=
  match H.responder with
  | .ok r =>
    (r.state.afterE2 S (pubFromPriv S H.respE) (dh S H.respE r.initEPub)
      (dh S H.respE r.initSPub)).seals []
  | .error _ => []

/-- What the initiator mixes into its hash up to the decryption of message 2. -/
def initMixed : List (List UInt8) :=
  [H.initCode, H.target.val, (pubFromPriv S H.initE).val, H.encS, H.encPayload,
    (Bytes.ofList 32 H.delivered2).val]

/-- What the responder mixes into its hash up to the encryption of message 2. -/
def respMixed : List (List UInt8) :=
  [H.respCode, H.respStatic.publicKeyBytes.val, (Bytes.ofList 32 H.delivered1).val,
    (H.delivered1.take 80).drop 32, H.delivered1.drop 80, (pubFromPriv S H.respE).val]

/-- The strings that the two sides hash up to the last decryption. -/
def hashed : List (List UInt8) :=
  chainInputs S.sha256 protocolName H.initMixed ++ chainInputs S.sha256 protocolName H.respMixed

/-- The idealised primitives on this run: the strings hashed do not collide, and every ciphertext
that a side accepts was sealed before in the run, under the same key, nonce and associated data. -/
structure Ideal : Prop where
  /-- The hash has no collision among the strings of the run. -/
  collisionFree : CollisionFree S.sha256 H.hashed
  /-- The responder's first decryption. -/
  authenticS : Authentic S H.initSeals H.respStateS ((H.delivered1.take 80).drop 32)
  /-- The responder's second decryption, after the static key that the first one gave. -/
  authenticPayload : ∀ s : Bytes 32,
    H.respStateS.decrypt S ((H.delivered1.take 80).drop 32) = some s.val →
      Authentic S H.initSeals (H.respStatePayload s) (H.delivered1.drop 80)
  /-- The initiator's decryption. -/
  authenticFinal : Authentic S (H.initSeals ++ H.respSeals) H.initStateFinal
    (H.delivered2.drop 32)

variable {H}

/-- What an authentic decryption at a state accepts is a sealing of the log with the state's hash
as associated data. -/
theorem exists_sealing {log : List Sealing} {st : SymmetricState} {k : Bytes 32}
    {c p : List UInt8} (h : Authentic S log st c) (hk : st.k = some k)
    (hp : st.decrypt S c = some p) :
    ∃ q ∈ log, q.aad = st.h.val ∧ S.aead.ciphertext q = c ∧ q.msg = p := by
  simp only [SymmetricState.decrypt, hk] at hp
  exact (h k hk).exists_sealing hp

/-- The sealings of message 1 are that of the static key and that of the payload. -/
theorem mem_initSeals {q : Sealing} (hq : q ∈ H.initSeals) :
    (q.aad = H.initStateS.h.val ∧ q.msg = H.initStatic.publicKeyBytes.val ∧
        S.aead.ciphertext q = H.encS) ∨
      (q.aad = H.initStatePayload.h.val ∧ S.aead.ciphertext q = H.encPayload) := by
  rcases List.mem_append.mp hq with hq | hq
  · obtain rfl := List.mem_singleton.mp hq
    exact .inl ⟨rfl, rfl, rfl⟩
  · obtain rfl := List.mem_singleton.mp hq
    exact .inr ⟨rfl, rfl⟩

/-- A sealing of message 2 is made by a responder that accepted, behind its ephemeral key. -/
theorem mem_respSeals {q : Sealing} (hq : q ∈ H.respSeals) :
    ∃ r, H.responder = .ok r ∧
      q.aad = (r.state.mixHash S (pubFromPriv S H.respE).val).h.val ∧
      (r.sendMessage2 S H.respE).2 = (pubFromPriv S H.respE).val ++ S.aead.ciphertext q := by
  unfold respSeals at hq
  split at hq
  case h_1 r hr =>
    obtain rfl := List.mem_singleton.mp hq
    exact ⟨r, hr, rfl, rfl⟩
  case h_2 => simp at hq

/-- The encrypted static key has 48 bytes. -/
theorem length_encS : H.encS.length = 48 := by
  rw [encS, length_encrypt rfl, Bytes.length_val]

/-- The hash at the initiator's decryption is the chain of what it mixed. -/
theorem initStateFinal_h : H.initStateFinal.h = chain S.sha256 protocolName H.initMixed := rfl

/-- The hash at the encryption of message 2 is the chain of what the responder mixed. -/
theorem respState_h {r : NoiseIkResponder} (hr : H.responder = .ok r) :
    (r.state.mixHash S (pubFromPriv S H.respE).val).h =
      chain S.sha256 protocolName H.respMixed := by
  obtain ⟨-, s, p, -, -, rfl⟩ := NoiseIkResponder.receiveMessage1_eq_ok.mp hr
  rfl

/-- A responder that completes was given message 1 by an initiator with its session code, built for
its static key. -/
theorem Ideal.responder_ok (h : H.Ideal) {r : NoiseIkResponder} (hr : H.responder = .ok r) :
    H.initCode = H.respCode ∧ H.target = H.respStatic.publicKeyBytes ∧
      H.delivered1 = H.initiator.2 := by
  obtain ⟨hlen, s, p, hs, hp, -⟩ := NoiseIkResponder.receiveMessage1_eq_ok.mp hr
  unfold msg1Len at hlen
  -- the first ciphertext: only the sealing of the static key has a plaintext of 32 bytes
  obtain ⟨q, hq, haad, hc, hmsg⟩ := exists_sealing h.authenticS rfl hs
  have hlenS : ((H.delivered1.take 80).drop 32).length = 48 := by simp [hlen]
  have hS : q.aad = H.initStateS.h.val ∧ (H.delivered1.take 80).drop 32 = H.encS := by
    rcases mem_initSeals hq with ⟨ha, -, hcq⟩ | ⟨-, hcq⟩
    · exact ⟨ha, hc.symm.trans hcq⟩
    · rw [← hc, hcq, encPayload, length_encrypt rfl] at hlenS
      simp at hlenS
  -- the second one: the sealing of the static key is too long
  obtain ⟨q', hq', -, hc', -⟩ := exists_sealing (h.authenticPayload s hs) rfl hp
  have hlenP : (H.delivered1.drop 80).length = 16 := by simp [hlen]
  have hP : H.delivered1.drop 80 = H.encPayload := by
    rcases mem_initSeals hq' with ⟨-, -, hcq⟩ | ⟨-, hcq⟩
    · rw [← hc', hcq, length_encS] at hlenP
      simp at hlenP
    · exact hc'.symm.trans hcq
  -- one associated data, so one transcript up to the ephemeral key
  have hh : chain S.sha256 protocolName [H.initCode, H.target.val, (pubFromPriv S H.initE).val] =
      chain S.sha256 protocolName [H.respCode, H.respStatic.publicKeyBytes.val,
        (Bytes.ofList 32 H.delivered1).val] :=
    Bytes.ext_val (hS.1.symm.trans haad)
  obtain ⟨-, hmixed⟩ := chain_inj h.collisionFree (by simp)
    (List.Subset.trans (chainInputs_subset_append _ _ _ [H.encS, H.encPayload, _])
      (List.subset_append_left _ _))
    (List.Subset.trans (chainInputs_subset_append _ _ _ [_, _, _])
      (List.subset_append_right _ _)) hh
  simp only [List.cons.injEq, and_true] at hmixed
  obtain ⟨hcode, htarget, he⟩ := hmixed
  refine ⟨hcode, Bytes.ext_val htarget, ?_⟩
  have hsplit : (H.delivered1.take 80).drop 32 ++ H.delivered1.drop 80 = H.delivered1.drop 32 := by
    have := List.take_append_drop 48 (H.delivered1.drop 32)
    rw [List.drop_drop] at this
    rwa [List.drop_take]
  calc H.delivered1
      = (Bytes.ofList 32 H.delivered1).val ++ H.delivered1.drop 32 :=
        (Bytes.ofList_append_drop (by omega)).symm
    _ = (pubFromPriv S H.initE).val ++ (H.encS ++ H.encPayload) := by
        rw [← he, ← hsplit, hS.2, hP]
    _ = H.initiator.2 := (List.append_assoc _ _ _).symm

/-- An initiator that completes was given the message 2 of a responder that completed. -/
theorem Ideal.initResult_ok (h : H.Ideal) {res : HandshakeResult} (hi : H.initResult = .ok res) :
    ∃ r, H.responder = .ok r ∧ H.delivered2 = (r.sendMessage2 S H.respE).2 := by
  obtain ⟨hlen, p, hp, -⟩ := NoiseIkInitiator.receiveMessage2_eq_ok.mp hi
  unfold msg2Len at hlen
  -- The payload that opens was sealed by one of the two ends.
  obtain ⟨q, hq, haad, hc, -⟩ := exists_sealing h.authenticFinal rfl hp
  have hlenP : (H.delivered2.drop 32).length = 16 := by simp [hlen]
  rcases List.mem_append.mp hq with hq | hq
  · rcases mem_initSeals hq with ⟨-, -, hcq⟩ | ⟨ha, -⟩
    · rw [← hc, hcq, length_encS] at hlenP
      simp at hlenP
    · -- its own payload was sealed behind the 48-byte static key, not behind a 32-byte key
      exfalso
      have hS := List.mem_append_left (chainInputs S.sha256 protocolName H.respMixed)
        (mem_chainInputs S.sha256 protocolName
          [H.initCode, H.target.val, (pubFromPriv S H.initE).val] H.encS
          [H.encPayload, (Bytes.ofList 32 H.delivered2).val])
      have hE := List.mem_append_left (chainInputs S.sha256 protocolName H.respMixed)
        (mem_chainInputs S.sha256 protocolName
          [H.initCode, H.target.val, (pubFromPriv S H.initE).val, H.encS, H.encPayload]
          (Bytes.ofList 32 H.delivered2).val [])
      have heq := h.collisionFree _ hS _ hE (Bytes.ext_val (ha.symm.trans haad))
      have := congrArg List.length (Bytes.append_inj heq).2
      rw [length_encS, Bytes.length_val] at this
      omega
  -- The responder sealed it: equal associated data means equal hash chains.
  · obtain ⟨r, hr, ha, hmsg⟩ := mem_respSeals hq
    refine ⟨r, hr, ?_⟩
    have hh : chain S.sha256 protocolName H.initMixed =
        chain S.sha256 protocolName H.respMixed := by
      rw [← initStateFinal_h, ← respState_h hr]
      exact Bytes.ext_val (haad.symm.trans ha)
    -- Without collisions the chains mixed the same data, the ephemeral key among it.
    obtain ⟨-, hmixed⟩ := chain_inj h.collisionFree (by rfl) (List.subset_append_left _ _)
      (List.subset_append_right _ _) hh
    simp only [initMixed, respMixed, List.cons.injEq, and_true] at hmixed
    obtain ⟨-, -, -, -, -, he⟩ := hmixed
    calc H.delivered2
        = (Bytes.ofList 32 H.delivered2).val ++ H.delivered2.drop 32 :=
          (Bytes.ofList_append_drop (by omega)).symm
      _ = (pubFromPriv S H.respE).val ++ S.aead.ciphertext q := by rw [he, hc]
      _ = _ := hmsg.symm

end Handshake

/-- Key agreement of the handshake. In an honest run both sides complete with the same traffic
keys and transcript hash and learn each other's static key. In any run with idealised primitives,
when the session codes differ, or the initiator was built for another responder key, or message 1
was altered, neither side completes, and when message 2 was altered, the initiator does not. -/
theorem key_agreement (S : Suite) :
    (∀ (i r : StaticKeypair S) (ie re : Bytes 32) (code : List UInt8),
      ∃ (resp : NoiseIkResponder) (ires : HandshakeResult),
        let new := NoiseIkInitiator.new i r.publicKeyBytes code ie
        let sent := resp.sendMessage2 S re
        NoiseIkResponder.receiveMessage1 r code new.2 = .ok resp ∧
          new.1.receiveMessage2 i sent.2 = .ok ires ∧
          ires.trafficKeys = sent.1.trafficKeys ∧
          ires.transcriptHash = sent.1.transcriptHash ∧
          ires.remoteStaticPubkey = r.publicKeyBytes ∧
          sent.1.remoteStaticPubkey = i.publicKeyBytes) ∧
    ∀ H : Handshake S, H.Ideal →
      (H.initCode ≠ H.respCode ∨ H.target ≠ H.respStatic.publicKeyBytes ∨
          H.delivered1 ≠ H.initiator.2 →
        (∃ e, H.respResult = .error e) ∧ ∃ e, H.initResult = .error e) ∧
      ((∀ res, H.respResult ≠ .ok (res, H.delivered2)) → ∃ e, H.initResult = .error e) := by
  refine ⟨fun i r ie re code => ?_, fun H h => ?_⟩
  · exact ⟨_, _, receiveMessage1_new i r code ie,
      receiveMessage2_sendMessage2 i _ ie re r.publicKeyBytes, rfl, rfl, rfl, rfl⟩
  have hinit : (∀ res, H.respResult ≠ .ok (res, H.delivered2)) →
      ∃ e, H.initResult = .error e := by
    intro hne
    cases hi : H.initResult with
    | error e => exact ⟨e, rfl⟩
    | ok res =>
      obtain ⟨r, hr, hd⟩ := h.initResult_ok hi
      refine absurd ?_ (hne (r.sendMessage2 S H.respE).1)
      rw [Handshake.respResult, hr, hd]
      rfl
  refine ⟨fun hbad => ?_, hinit⟩
  -- the responder did not complete, so it sent no message 2
  have hresp : ∃ e, H.respResult = .error e := by
    cases hr : H.responder with
    | error e => exact ⟨e, by rw [Handshake.respResult, hr]; rfl⟩
    | ok r =>
      obtain ⟨hcode, htarget, hmsg⟩ := h.responder_ok hr
      exact absurd hbad (by simp [hcode, htarget, hmsg])
  obtain ⟨e, he⟩ := hresp
  exact ⟨⟨e, he⟩, hinit fun res => by simp [he]⟩

/-! ### A run that can be evaluated -/

/-- Primitives to evaluate runs with: multiplication modulo `256^32` as Diffie-Hellman, checksums
for the hashes and the cipher with a checksum as its tag. -/
def sampleSuite : Suite where
  x25519 a b := ⟨leBytes 32 (ofLE a.val * ofLE b.val), length_leBytes _ _⟩
  basepoint := ⟨leBytes 32 9, length_leBytes _ _⟩
  x25519_comm a b := by
    apply Bytes.ext_val
    apply leBytes_eq_of_mod_eq
    simp only [ofLE_leBytes, Nat.mul_mod_mod]
    rw [← Nat.mul_assoc, Nat.mul_comm (ofLE a.val), Nat.mul_assoc]
  sha256 := checksum 32
  hkdf ck ikm := (checksum 32 (1 :: ck.val ++ ikm), checksum 32 (2 :: ck.val ++ ikm))
  aead := Aead.clear

/-- The key pair of a secret under `sampleSuite`. -/
def sampleKeypair (b : UInt8) : StaticKeypair sampleSuite :=
  ⟨Bytes.fill 32 b, pubFromPriv sampleSuite (Bytes.fill 32 b), rfl⟩

/-- A handshake for the session code `123` whose message 1 arrives and whose message 2 arrives with
its last byte replaced. -/
def sampleRun : Handshake sampleSuite :=
  let code := [49, 50, 51]
  let i := sampleKeypair 3
  let r := sampleKeypair 5
  let msg1 := (NoiseIkInitiator.new i r.publicKeyBytes code (Bytes.fill 32 7)).2
  let msg2 := match NoiseIkResponder.receiveMessage1 r code msg1 with
    | .ok resp => (resp.sendMessage2 sampleSuite (Bytes.fill 32 11)).2
    | .error _ => []
  { initStatic := i
    respStatic := r
    initE := Bytes.fill 32 7
    respE := Bytes.fill 32 11
    initCode := code
    respCode := code
    target := r.publicKeyBytes
    delivered1 := msg1
    delivered2 := msg2.set 47 0 }

/-- In `sampleRun` the primitives are ideal, the responder completes and the initiator does not. -/
theorem key_agreement_altered :
    sampleRun.Ideal ∧ (∃ r, sampleRun.responder = .ok r) ∧
      ∃ e, sampleRun.initResult = .error e := by
  have hideal : sampleRun.Ideal := by
    refine ⟨by decide +kernel, by decide +kernel, fun s hs => ?_, by decide +kernel⟩
    have hs' : s = (sampleKeypair 3).publicKeyBytes :=
      Bytes.ext_val (Option.some.inj (hs.symm.trans (by decide +kernel)))
    subst hs'
    decide +kernel
  refine ⟨hideal, ?_, ((key_agreement sampleSuite).2 sampleRun hideal).2 ?_⟩
  · exact ⟨_, receiveMessage1_new (sampleKeypair 3) (sampleKeypair 5) _ _⟩
  · intro res h
    have hsnd : ∀ d, sampleRun.respResult = .ok (res, d) →
        Prod.snd <$> sampleRun.respResult = .ok d := fun d hd => map_eq_ok.mpr ⟨_, hd, rfl⟩
    exact absurd (hsnd _ h) (by decide +kernel)

end LowBand.Crypto
