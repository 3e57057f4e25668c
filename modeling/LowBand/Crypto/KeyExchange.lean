import LowBand.Crypto.RelayGuard

/-!
# The ephemeral key exchange

`key_exchange.rs`: each side combines its ephemeral secret with the other's public key and expands
the result into two traffic keys, one for each direction. The side with the smaller public key is
the initiator, so two sides with different public keys take opposite roles without a further message
(`derive_agree`), and what one seals under its send key the other opens with its receive key.

`Pair` is a run of two such sides that seal datagrams in any order. Every payload is the datagram of
a sealing under the send key of its side (`sent_wire`), which is the receive key of the other side
and of no other side. That the sealing side does not open its own payload needs an ideal cipher
(`IdealFor`): a ciphertext is accepted only under the key of a sealing, and two sealings do not have
one ciphertext.
-/

namespace LowBand.Crypto

open Lib

/-! ## Deriving a session -/

/-- `HKDF_INFO`, the ASCII bytes of `lowband v1 traffic keys`. -/
def hkdfInfo : List UInt8 :=
  [108, 111, 119, 98, 97, 110, 100, 32, 118, 49, 32, 116, 114, 97, 102, 102, 105, 99, 32, 107, 101,
    121, 115]

/-- `SessionState`. -/
structure SessionState where
  /-- The traffic keys. -/
  trafficKeys : TrafficKeys
  /-- The ephemeral public key of this side. -/
  localPublicKey : Bytes 32
  /-- The ephemeral public key of the other side. -/
  peerPublicKey : Bytes 32
  /-- Whether this side is the initiator. -/
  isInitiator : Bool
deriving DecidableEq

/-- `EphemeralKeypair`; `generate` is the only constructor of the source, so the public key is that
of the secret. -/
structure EphemeralKeypair (S : Suite) where
  /-- The private scalar. -/
  secret : Bytes 32
  /-- The public key. -/
  publicKeyBytes : Bytes 32
  /-- The public key is derived from the secret. -/
  public_eq : publicKeyBytes = pubFromPriv S secret

/-- `Hkdf::<Sha256>` without a salt: the input key material, expanded with an info to 64 bytes. -/
abbrev Hkdf := List UInt8 → List UInt8 → Bytes 64

section Derive

variable {S : Suite} (hkdf : Hkdf)

/-- `derive_session_state`. -/
def EphemeralKeypair.deriveSessionState (kp : EphemeralKeypair S) (peerPub : Bytes 32) :
    SessionState :=
  let dhOutput := dh S kp.secret peerPub
  let okm := hkdf hkdfInfo dhOutput.val
  { trafficKeys := ⟨Bytes.ofList 32 okm.val, Bytes.ofList 32 (okm.val.drop 32)⟩
    localPublicKey := kp.publicKeyBytes
    peerPublicKey := peerPub
    isInitiator := kp.publicKeyBytes.val < peerPub.val }

/-- Of two different keys exactly one is smaller. -/
theorem decide_lt_eq_not {a b : Bytes 32} (h : a ≠ b) :
    decide (a.val < b.val) = !decide (b.val < a.val) := by
  by_cases hlt : a.val < b.val
  · have hnot : ¬ b.val < a.val := List.lt_asymm hlt
    simp [hlt, hnot]
  · have hgt : b.val < a.val := by
      by_contra hnot
      exact h (Bytes.ext_val (List.le_antisymm (List.not_lt.mp hnot) (List.not_lt.mp hlt)))
    simp [hlt, hgt]

/-- Two sides with different public keys derive the same traffic keys and take opposite roles. -/
theorem derive_agree {x y : EphemeralKeypair S} (h : x.publicKeyBytes ≠ y.publicKeyBytes) :
    let sx := x.deriveSessionState hkdf y.publicKeyBytes
    let sy := y.deriveSessionState hkdf x.publicKeyBytes
    sx.trafficKeys = sy.trafficKeys ∧ sx.isInitiator = !sy.isInitiator := by
  refine ⟨?_, decide_lt_eq_not h⟩
  have hdh : dh S x.secret y.publicKeyBytes = dh S y.secret x.publicKeyBytes := by
    rw [x.public_eq, y.public_eq]
    exact S.x25519_comm x.secret y.secret
  unfold EphemeralKeypair.deriveSessionState
  rw [hdh]

end Derive

/-! ## Two sides -/

/-- The ciphers of one side. -/
structure Endpoint where
  /-- The cipher of what it sends. -/
  sending : DatagramCipher
  /-- The cipher of what it receives. -/
  receiving : DatagramCipher
deriving DecidableEq

/-- The ciphers of a derived session. -/
def Endpoint.new (s : SessionState) : Endpoint :=
  ⟨.new (s.trafficKeys.sendKey s.isInitiator), .new (s.trafficKeys.recvKey s.isInitiator)⟩

/-- A payload that was sealed, with what it was sealed from. -/
structure Sent where
  /-- The side that sealed it. -/
  side : Bool
  /-- What was sealed. -/
  plaintext : List UInt8
  /-- How it was sealed. -/
  sealing : Sealing
  /-- The payload. -/
  payload : RelayPayload
deriving DecidableEq

namespace Pair

variable (A : Aead)

/-- A side seals a plaintext. -/
def step : Machine (Bool → Endpoint) (Bool × List UInt8) Sent := fun s (side, plaintext) =>
  let (payload, sending) := (s side).sending.sealDatagram A plaintext
  ([⟨side, plaintext, (s side).sending.sealing plaintext, payload⟩],
    Function.update s side { s side with sending })

/-- The two sides of a session, with the state that each derived. -/
def start (state : Bool → SessionState) : Bool → Endpoint := fun side => .new (state side)

/-- All that is sealed in a run. -/
def sent (state : Bool → SessionState) (es : List (Bool × List UInt8)) : List Sent :=
  (step A).emitted (start state) es

/-- The ideal cipher, at the decryptions of what was sent by the sides that sent it: what is
accepted was sealed under the key it is opened with, and no two sealings have one ciphertext. -/
structure IdealFor (state : Bool → SessionState) (log : List Sent) : Prop where
  /-- What is accepted was sealed. -/
  authentic : ∀ m ∈ log, A.Authentic (log.map Sent.sealing) (start state m.side).receiving.key
    m.sealing.nonce [] (A.ciphertext m.sealing)
  /-- A ciphertext belongs to one sealing. -/
  distinct : ∀ m ∈ log, ∀ m' ∈ log, A.ciphertext m.sealing = A.ciphertext m'.sealing →
    m.sealing = m'.sealing

variable {A}

/-- What a side sends is the datagram of a sealing under its send key. -/
theorem sent_wire {state : Bool → SessionState} {es : List (Bool × List UInt8)} :
    ∀ m ∈ sent A state es, m.payload.asBytes = wire A m.sealing ∧
      ∃ n, m.sealing = ⟨(start state m.side).sending.key, n, [], m.plaintext⟩ := by
  refine Machine.forall_mem_emitted (fun s => ∀ side, (s side).sending.key =
    (start state side).sending.key) ?_ (fun _ => rfl)
  rintro s ⟨side, plaintext⟩ hs
  constructor
  · intro side'
    by_cases h : side' = side
    · rw [h, ← hs side]
      simp [step, DatagramCipher.sealDatagram]
    · simp [step, Function.update_of_ne h, hs side']
  · intro m hm
    obtain rfl := List.mem_singleton.mp hm
    exact ⟨DatagramCipher.sealDatagram_asBytes _ _, _, by rw [← hs side]; rfl⟩

section Session

variable {state : Bool → SessionState}
  (hkeys : (state false).trafficKeys = (state true).trafficKeys)
  (hroles : (state false).isInitiator = !(state true).isInitiator)

include hkeys hroles

/-- What a side sends with is what the other receives with. -/
theorem sending_key_eq (side : Bool) :
    (start state side).sending.key = (start state (!side)).receiving.key := by
  cases side <;> cases h : (state true).isInitiator <;>
    simp [start, Endpoint.new, DatagramCipher.new, TrafficKeys.sendKey, TrafficKeys.recvKey, hkeys,
      hroles, h]

/-- The other side opens what a side sends. -/
theorem openPayload_other {es : List (Bool × List UInt8)} {m : Sent} (hm : m ∈ sent A state es) :
    (start state (!m.side)).receiving.openPayload A m.payload = some m.plaintext := by
  obtain ⟨hwire, n, hsealing⟩ := sent_wire m hm
  have hopen := DatagramCipher.openBytes_eq_some (c := (start state (!m.side)).receiving) (A := A)
    (w := m.payload.asBytes) (p := m.plaintext)
  refine hopen.mpr ⟨n, ?_⟩
  rw [hwire, hsealing, sending_key_eq hkeys hroles]

omit hroles in
/-- With different keys for the two directions, no side sends with what it receives with. -/
theorem sending_key_ne (hne : (state true).trafficKeys.initiatorToResponder ≠
    (state true).trafficKeys.responderToInitiator) (side : Bool) :
    (start state side).sending.key ≠ (start state side).receiving.key := by
  have hside : (state side).trafficKeys = (state true).trafficKeys := by
    cases side with
    | false => exact hkeys
    | true => rfl
  cases h : (state side).isInitiator with
  | false =>
    simpa [start, Endpoint.new, DatagramCipher.new, TrafficKeys.sendKey, TrafficKeys.recvKey, hside,
      h] using hne.symm
  | true =>
    simpa [start, Endpoint.new, DatagramCipher.new, TrafficKeys.sendKey, TrafficKeys.recvKey, hside,
      h] using hne

omit hroles in
/-- With different keys and an ideal cipher, a side does not open what it sends. -/
theorem openPayload_own (hne : (state true).trafficKeys.initiatorToResponder ≠
      (state true).trafficKeys.responderToInitiator) {es : List (Bool × List UInt8)}
    (hideal : IdealFor A state (sent A state es)) {m : Sent} (hm : m ∈ sent A state es) :
    (start state m.side).receiving.openPayload A m.payload = none := by
  obtain ⟨hwire, n, hsealing⟩ := sent_wire m hm
  by_contra hsome
  obtain ⟨p, hp⟩ := Option.ne_none_iff_exists'.mp hsome
  obtain ⟨n', hn'⟩ := DatagramCipher.openBytes_eq_some.mp hp
  obtain ⟨rfl, hcipher⟩ := Bytes.append_inj (hwire.symm.trans hn')
  -- What was opened is a sealing under the receive key with the same ciphertext.
  have hdec : A.decrypt (start state m.side).receiving.key m.sealing.nonce []
      (A.ciphertext m.sealing) = some p := A.decrypt_eq_some.mpr hcipher
  obtain ⟨m', hm', hsealing'⟩ := List.mem_map.mp (hideal.authentic m hm p hdec)
  have heq : m.sealing = m'.sealing := by
    apply hideal.distinct m hm m' hm'
    rw [hsealing', hcipher]
  have hkey : m.sealing.key = m'.sealing.key := congrArg Sealing.key heq
  rw [hsealing, hsealing'] at hkey
  exact sending_key_ne hkeys hne m.side hkey

end Session

end Pair

/-- No two seals of a cipher whose keys differ and seal fewer than `2^64` datagrams each use one key
and nonce. Two sides with different public keys derive the same traffic keys and take opposite
roles. Of two such sides, in every run, the other opens every payload to what was sealed, and the
one that sealed it does not open it, with different keys for the two directions and an ideal
cipher. -/
theorem seals_unique_and_directed (S : Suite) (hkdf : Hkdf) :
    (∀ (key : Bytes 32) (calls : List CipherCall), (key :: rotatedKeys calls).Nodup →
      (∀ k, DatagramCipher.countUnder k ((DatagramCipher.new key).sealings S.aead calls) < 2 ^ 64) →
      (((DatagramCipher.new key).sealings S.aead calls).map fun q => (q.key, q.nonce)).Nodup) ∧
    (∀ x y : EphemeralKeypair S, x.publicKeyBytes ≠ y.publicKeyBytes →
      let sx := x.deriveSessionState hkdf y.publicKeyBytes
      let sy := y.deriveSessionState hkdf x.publicKeyBytes
      sx.trafficKeys = sy.trafficKeys ∧ sx.isInitiator = !sy.isInitiator) ∧
    ∀ state : Bool → SessionState, (state false).trafficKeys = (state true).trafficKeys →
      (state false).isInitiator = (!(state true).isInitiator) →
      ∀ es, ∀ m ∈ Pair.sent S.aead state es,
        (Pair.start state (!m.side)).receiving.openPayload S.aead m.payload = some m.plaintext ∧
        ((state true).trafficKeys.initiatorToResponder ≠
            (state true).trafficKeys.responderToInitiator →
          Pair.IdealFor S.aead state (Pair.sent S.aead state es) →
          (Pair.start state m.side).receiving.openPayload S.aead m.payload = none) := by
  -- Nonces of one cipher, then the keys of the two ends, then the two directions.
  refine ⟨?_, ?_, ?_⟩
  · intro key calls hkeys hcount
    exact DatagramCipher.nodup_sealings hkeys hcount
  · intro x y h
    exact derive_agree hkdf h
  · intro state hkeys hroles es m hm
    refine ⟨Pair.openPayload_other hkeys hroles hm, ?_⟩
    intro hne hideal
    exact Pair.openPayload_own hkeys hne hideal hm

/-! ### A run that can be evaluated -/

/-- The ephemeral key pair of a secret under `sampleSuite`. -/
def sampleEphemeral (b : UInt8) : EphemeralKeypair sampleSuite :=
  ⟨(sampleKeypair b).secret, (sampleKeypair b).publicKeyBytes, (sampleKeypair b).public_eq⟩

/-- A checksum in the place of HKDF. -/
def sampleHkdf : Hkdf := fun info ikm => checksum 64 (info ++ ikm)

/-- The states that two sides derive from each other's public keys. -/
def sampleState : Bool → SessionState
  | false =>
    (sampleEphemeral 3).deriveSessionState sampleHkdf (sampleEphemeral 5).publicKeyBytes
  | true => (sampleEphemeral 5).deriveSessionState sampleHkdf (sampleEphemeral 3).publicKeyBytes

/-- Both sides of a derived session seal the same plaintext: each payload opens on the other side
only. A cipher that is rotated between two seals uses one nonce under two keys. -/
theorem seals_unique_and_directed_sample :
    (((DatagramCipher.new (Bytes.fill 32 1)).sealings Aead.clear
        [.sealDatagram [7], .rotateKey (Bytes.fill 32 2), .sealDatagram [7]]).map
      fun q => (q.key, q.nonce)).Nodup ∧
    ∀ m ∈ Pair.sent Aead.clear sampleState [(false, [7]), (true, [7])],
      (Pair.start sampleState (!m.side)).receiving.openPayload Aead.clear m.payload = some [7] ∧
      (Pair.start sampleState m.side).receiving.openPayload Aead.clear m.payload = none := by
  obtain ⟨hunique, hagree, hpair⟩ := seals_unique_and_directed sampleSuite sampleHkdf
  -- Two different ephemeral keys give the two roles.
  obtain ⟨hkeys, hroles⟩ := hagree (sampleEphemeral 3) (sampleEphemeral 5) (by decide +kernel)
  constructor
  · apply hunique
    · decide +kernel
    · intro k
      exact lt_of_le_of_lt List.countP_le_length (by decide +kernel)
  · intro m hm
    obtain ⟨hother, hown⟩ := hpair sampleState hkeys hroles [(false, [7]), (true, [7])] m hm
    have hplain : ∀ m ∈ Pair.sent Aead.clear sampleState [(false, [7]), (true, [7])],
        m.plaintext = [7] := by decide +kernel
    rw [hplain m hm] at hother
    exact ⟨hother, hown (by decide +kernel) ⟨by decide +kernel, by decide +kernel⟩⟩

end LowBand.Crypto
