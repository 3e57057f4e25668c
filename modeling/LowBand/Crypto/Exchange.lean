import LowBand.Crypto.NoiseIk
import Mathlib.Data.Fintype.Basic

/-!
# Many handshakes at once

`key_agreement` is about one initiator and one responder. Here any number of threads run the
handshake with one session code at the same time, over a network that hands a thread the messages of
others. An `Exchange` is such threads with what happened to them: which message 1 was sent and what
reached each thread.

The idealised primitives (`Ideal`) are those of a single handshake, on the whole exchange: the
strings hashed do not collide, what is decrypted was sealed, and no two threads drew one ephemeral
key. A message 1 is then accepted only under the key it was built for (`Ideal.target_eq`), and an
initiator completes only with the message 2 of a responder that was given its own message 1
(`Ideal.answered`), with the traffic keys of that responder (`keys_agree`).
-/

namespace LowBand.Crypto

open Lib SymmetricState

/-- Threads that run handshakes with one session code, and what was sent and received. -/
structure Exchange (S : Suite) (κ : Type) where
  /-- The session code. -/
  code : List UInt8
  /-- The static key pair that a thread uses. -/
  static : κ → StaticKeypair S
  /-- The responder key that a thread connects to, when it is an initiator. -/
  target : κ → Bytes 32
  /-- The ephemeral secret of a thread. -/
  eSecret : κ → Bytes 32
  /-- The message 1 of the thread was sent. -/
  Sent : κ → Prop
  /-- What reached the thread as a message 1. -/
  arrived1 : κ → Option (List UInt8)
  /-- What reached the thread as a message 2. -/
  arrived2 : κ → Option (List UInt8)

namespace Exchange

variable {S : Suite} {κ : Type} (X : Exchange S κ)

/-- The handshake of the initiator `k` and the responder `r`, to which the network delivers the
given texts. -/
def handshake (k r : κ) (delivered1 delivered2 : List UInt8) : Handshake S where
  initStatic := X.static k
  respStatic := X.static r
  initE := X.eSecret k
  respE := X.eSecret r
  initCode := X.code
  respCode := X.code
  target := X.target k
  delivered1 := delivered1
  delivered2 := delivered2

/-- A thread as an initiator, with its message 1. -/
def initiator (k : κ) : NoiseIkInitiator × List UInt8 :=
  NoiseIkInitiator.new (X.static k) (X.target k) X.code (X.eSecret k)

/-- A thread as a responder, after a message 1. -/
def responder (r : κ) (d : List UInt8) : Except HandshakeError NoiseIkResponder :=
  NoiseIkResponder.receiveMessage1 (X.static r) X.code d

/-- The sealings of the exchange: those of the messages 1 that were sent, and those of the messages
2 that answer what arrived. -/
def Sealed (q : Sealing) : Prop :=
  (∃ k, X.Sent k ∧ q ∈ (X.handshake k k [] []).initSeals) ∨
    ∃ r, ∃ d ∈ X.arrived1 r, q ∈ (X.handshake r r d []).respSeals

/-- The strings that an initiator hashes up to its message 1. -/
def hashed1 (k : κ) : List (List UInt8) :=
  chainInputs S.sha256 protocolName ((X.handshake k k [] []).initMixed.take 5)

/-- The strings that an initiator hashes up to the decryption of what arrived. -/
def hashed2 (k : κ) (d : List UInt8) : List (List UInt8) :=
  chainInputs S.sha256 protocolName (X.handshake k k [] d).initMixed

/-- The strings that a responder hashes when it accepts what arrived. -/
def hashedResp (r : κ) (d : List UInt8) : List (List UInt8) :=
  if (X.responder r d).isOk then
    chainInputs S.sha256 protocolName (X.handshake r r d []).respMixed
  else []

/-- The strings hashed in the exchange. -/
def Hashed (x : List UInt8) : Prop :=
  (∃ k, X.Sent k ∧ x ∈ X.hashed1 k) ∨ (∃ k, ∃ d ∈ X.arrived2 k, x ∈ X.hashed2 k d) ∨
    ∃ r, ∃ d ∈ X.arrived1 r, x ∈ X.hashedResp r d

/-- What the state decrypts a ciphertext to was sealed at the state. -/
def Authentic (st : SymmetricState) (c : List UInt8) : Prop :=
  ∀ p ∈ st.decrypt S c, ∀ q ∈ st.seals p, X.Sealed q

/-- The idealised primitives on the exchange. -/
structure Ideal : Prop where
  /-- The hash has no collision among the strings hashed. -/
  collisionFree : ∀ x y, X.Hashed x → X.Hashed y → S.sha256 x = S.sha256 y → x = y
  /-- A responder decrypts a static key that was sealed. -/
  authenticS : ∀ r, ∀ d ∈ X.arrived1 r,
    X.Authentic (X.handshake r r d []).respStateS ((d.take 80).drop 32)
  /-- An initiator decrypts a payload that was sealed. -/
  authenticFinal : ∀ k, ∀ d ∈ X.arrived2 k,
    X.Authentic (X.handshake k k [] d).initStateFinal (d.drop 32)
  /-- The ephemeral keys are drawn afresh. -/
  fresh : ∀ k k', X.Sent k → X.Sent k' →
    pubFromPriv S (X.eSecret k) = pubFromPriv S (X.eSecret k') → k = k'

variable {X} {k r : κ} {d : List UInt8}

/-- Chains of strings hashed in the exchange, with one final hash, are of the same data. -/
theorem Ideal.data_eq (h : X.Ideal) {ds ds' : List (List UInt8)}
    (heq : chain S.sha256 protocolName ds = chain S.sha256 protocolName ds')
    (hlen : ds.length = ds'.length) (hds : ∀ x ∈ chainInputs S.sha256 protocolName ds, X.Hashed x)
    (hds' : ∀ x ∈ chainInputs S.sha256 protocolName ds', X.Hashed x) : ds = ds' := by
  refine (chain_inj (l := chainInputs S.sha256 protocolName ds ++
    chainInputs S.sha256 protocolName ds') ?_ hlen (List.subset_append_left _ _)
    (List.subset_append_right _ _) heq).2
  have hall : ∀ x ∈ chainInputs S.sha256 protocolName ds ++
      chainInputs S.sha256 protocolName ds', X.Hashed x := by
    intro x hx
    exact (List.mem_append.mp hx).elim (hds x) (hds' x)
  exact fun x hx y hy => h.collisionFree x y (hall x hx) (hall y hy)

/-- A responder that accepts hashes its whole chain. -/
theorem hashedResp_of_ok {resp : NoiseIkResponder} (hr : X.responder r d = .ok resp) :
    X.hashedResp r d = chainInputs S.sha256 protocolName (X.handshake r r d []).respMixed := by
  simp [hashedResp, hr, Except.isOk, Except.toBool]

/-- The message 1 of a thread starts with its ephemeral key. -/
theorem ofList_initiator (k : κ) :
    Bytes.ofList 32 (X.initiator k).2 = pubFromPriv S (X.eSecret k) := by
  unfold initiator
  rw [NoiseIkInitiator.new_eq]
  simp only [List.append_assoc]
  exact Bytes.ofList_append _ _

/-- The messages 1 that were sent are different. -/
theorem Ideal.initiator_inj (h : X.Ideal) {k' : κ} (hk : X.Sent k) (hk' : X.Sent k')
    (heq : (X.initiator k).2 = (X.initiator k').2) : k = k' := by
  refine h.fresh k k' hk hk' ?_
  rw [← ofList_initiator, heq, ofList_initiator]

/-- A message 1 is accepted only under the key that it was built for. -/
theorem Ideal.target_eq (h : X.Ideal) {resp : NoiseIkResponder} (hk : X.Sent k)
    (hd : X.arrived1 r = some (X.initiator k).2) (hr : X.responder r (X.initiator k).2 = .ok resp) :
    X.target k = (X.static r).publicKeyBytes := by
  obtain ⟨-, s, p, hs, -, -⟩ := NoiseIkResponder.receiveMessage1_eq_ok.mp hr
  -- the static key was sealed, and only that of a message 1 has 32 bytes
  have hsealed := h.authenticS r _ hd s.val hs _ (List.mem_singleton.mpr rfl)
  obtain ⟨k', hk', hq⟩ | ⟨r', d', -, hq⟩ := hsealed
  · rcases List.mem_append.mp hq with hq | hq
    · have hq := List.mem_singleton.mp hq
      have haad : chain S.sha256 protocolName
            [X.code, (X.target k').val, (pubFromPriv S (X.eSecret k')).val] =
          chain S.sha256 protocolName [X.code, (X.static r).publicKeyBytes.val,
            (Bytes.ofList 32 (X.initiator k).2).val] :=
        Bytes.ext_val (congrArg Sealing.aad hq).symm
      have hdata := h.data_eq haad rfl
        (fun x hx => .inl ⟨k', hk', chainInputs_subset_append _ _ _ [_, _] hx⟩)
        (fun x hx => .inr (.inr ⟨r, _, hd, by
          rw [hashedResp_of_ok hr]
          exact chainInputs_subset_append _ _ _ [_, _, _] hx⟩))
      simp only [List.cons.injEq, and_true, true_and] at hdata
      -- the thread that sealed it drew the ephemeral key of the message
      have hkk : k' = k := by
        refine h.fresh k' k hk' hk ?_
        rw [← ofList_initiator (X := X) k]
        exact Bytes.ext_val hdata.2
      rw [← hkk]
      exact Bytes.ext_val hdata.1
    · have := congrArg (List.length ∘ Sealing.msg) (List.mem_singleton.mp hq)
      simp at this
  · exfalso
    unfold Handshake.respSeals at hq
    split at hq
    · have := congrArg (List.length ∘ Sealing.msg) (List.mem_singleton.mp hq)
      simp at this
    · cases hq

/-- The empty payload that an initiator decrypts was not sealed for a message 1: that of a message 1
is sealed behind 48 bytes, and that of a message 2 behind 32. -/
theorem Ideal.not_mem_initSeals (h : X.Ideal) (hd : X.arrived2 k = some d) {k' : κ}
    (hk' : X.Sent k') {q : Sealing} (hmsg : q.msg.length = 0)
    (haad : q.aad = (X.handshake k k [] d).initStateFinal.h.val) :
    q ∉ (X.handshake k' k' [] []).initSeals := by
  intro hq
  rcases List.mem_append.mp hq with hq | hq
  · rw [List.mem_singleton.mp hq, Bytes.length_val] at hmsg
    omega
  · rw [List.mem_singleton.mp hq] at haad
    have hE := mem_chainInputs S.sha256 protocolName
      ((X.handshake k k [] d).initMixed.take 5) (Bytes.ofList 32 d).val []
    have hS := mem_chainInputs S.sha256 protocolName
      ((X.handshake k' k' [] []).initMixed.take 3) (X.handshake k' k' [] []).encS
      [(X.handshake k' k' [] []).encPayload]
    have heq := h.collisionFree _ _ (.inr (.inl ⟨k, d, hd, hE⟩)) (.inl ⟨k', hk', hS⟩)
      (Bytes.ext_val haad.symm)
    have := congrArg List.length (Bytes.append_inj heq).2
    rw [Handshake.length_encS, Bytes.length_val] at this
    omega

/-- An initiator and a responder whose hashes agree at message 2 have seen the same messages: what
the responder was given is the message 1, and what the initiator was given starts with the
ephemeral key of the responder. -/
theorem Ideal.messages_eq (h : X.Ideal) (hd : X.arrived2 k = some d) {d' : List UInt8}
    (hd' : X.arrived1 r = some d') {resp : NoiseIkResponder} (hr : X.responder r d' = .ok resp)
    (hh : (X.handshake k k [] d).initStateFinal.h.val =
      (resp.state.mixHash S (pubFromPriv S (X.eSecret r)).val).h.val) :
    d' = (X.initiator k).2 ∧ (Bytes.ofList 32 d).val = (pubFromPriv S (X.eSecret r)).val := by
  obtain ⟨hlen, -⟩ := NoiseIkResponder.receiveMessage1_eq_ok.mp hr
  have hresp : (X.handshake r r d' []).responder = .ok resp := hr
  -- Both sides hashed the same chain, so without collisions they hashed the same data.
  have hchain : chain S.sha256 protocolName (X.handshake k k [] d).initMixed =
      chain S.sha256 protocolName (X.handshake r r d' []).respMixed := by
    rw [← Handshake.initStateFinal_h, ← Handshake.respState_h hresp]
    exact Bytes.ext_val hh
  have hdata := h.data_eq hchain rfl (fun x hx => .inr (.inl ⟨k, d, hd, hx⟩))
    (fun x hx => .inr (.inr ⟨r, d', hd', (hashedResp_of_ok hr).symm ▸ hx⟩))
  simp only [Handshake.initMixed, Handshake.respMixed, List.cons.injEq, and_true] at hdata
  obtain ⟨-, -, he, hS, hP, he'⟩ := hdata
  refine ⟨?_, he'⟩
  -- The message is the ephemeral key, the sealed static key and the sealed payload, of which each
  -- is now known.
  have hsplit : (d'.take 80).drop 32 ++ d'.drop 80 = d'.drop 32 := by
    have := List.take_append_drop 48 (d'.drop 32)
    rw [List.drop_drop] at this
    rwa [List.drop_take]
  have hle : 32 ≤ d'.length := le_of_le_of_eq (by decide) hlen.symm
  calc d' = (Bytes.ofList 32 d').val ++ d'.drop 32 := (Bytes.ofList_append_drop hle).symm
    _ = (pubFromPriv S (X.eSecret k)).val ++
          ((X.handshake k k [] d).encS ++ (X.handshake k k [] d).encPayload) := by
        rw [hS, hP, ← hsplit]
        exact congrArg (· ++ _) he.symm
    _ = (X.initiator k).2 := (List.append_assoc _ _ _).symm

/-- An initiator that completes was given the message 2 of a responder that accepted its own
message 1. -/
theorem Ideal.answered (h : X.Ideal) {res : HandshakeResult} (hd : X.arrived2 k = some d)
    (hok : (X.initiator k).1.receiveMessage2 (X.static k) d = .ok res) :
    ∃ r resp, X.arrived1 r = some (X.initiator k).2 ∧ X.responder r (X.initiator k).2 = .ok resp ∧
      d = (resp.sendMessage2 S (X.eSecret r)).2 := by
  obtain ⟨hlen, p, hp, -⟩ := NoiseIkInitiator.receiveMessage2_eq_ok.mp hok
  unfold msg2Len at hlen
  -- What the initiator accepts was sealed by one of the two parties.
  obtain ⟨q, hsealed, hc, haad⟩ : ∃ q, X.Sealed q ∧ S.aead.ciphertext q = d.drop 32 ∧
      q.aad = (X.handshake k k [] d).initStateFinal.h.val :=
    ⟨_, h.authenticFinal k d hd p hp _ (List.mem_singleton.mpr rfl),
      (S.aead.decrypt_eq_some.mp hp).symm, rfl⟩
  have hplain : q.msg.length = 0 := by
    have hclen := congrArg List.length hc
    rw [Aead.ciphertext, S.aead.length_encrypt, List.length_drop, hlen] at hclen
    omega
  -- The initiator sealed nothing with an empty plaintext, so it was the responder.
  obtain ⟨k', hk', hq⟩ | ⟨r, d', hd', hq⟩ := hsealed
  · exact absurd hq (h.not_mem_initSeals hd hk' hplain haad)
  · obtain ⟨resp, hr, haad', hmsg2⟩ := Handshake.mem_respSeals hq
    obtain ⟨rfl, he⟩ := h.messages_eq hd hd' hr (haad.symm.trans haad')
    refine ⟨r, resp, hd', hr, ?_⟩
    calc d = (Bytes.ofList 32 d).val ++ d.drop 32 := (Bytes.ofList_append_drop (by omega)).symm
      _ = (pubFromPriv S (X.eSecret r)).val ++ S.aead.ciphertext q := by rw [hc, he]
      _ = (resp.sendMessage2 S (X.eSecret r)).2 := hmsg2.symm

/-- An initiator that was built for the responder's key, and completes with its message 2, has its
traffic keys, and is the initiator of the two. -/
theorem keys_agree {resp : NoiseIkResponder} {res : HandshakeResult}
    (htarget : X.target k = (X.static r).publicKeyBytes)
    (hr : X.responder r (X.initiator k).2 = .ok resp)
    (hok : (X.initiator k).1.receiveMessage2 (X.static k) (resp.sendMessage2 S (X.eSecret r)).2 =
      .ok res) :
    res.trafficKeys = (resp.sendMessage2 S (X.eSecret r)).1.trafficKeys ∧ res.isInitiator = true ∧
      (resp.sendMessage2 S (X.eSecret r)).1.isInitiator = false := by
  unfold initiator at hr hok
  rw [htarget] at hr hok
  obtain rfl := Except.ok.inj ((receiveMessage1_new _ _ _ _).symm.trans hr)
  obtain rfl := Except.ok.inj ((receiveMessage2_sendMessage2 _ _ _ _ _).symm.trans hok)
  exact ⟨rfl, rfl, rfl⟩

/-- A message 2 has 48 bytes. -/
theorem length_sendMessage2 (resp : NoiseIkResponder) (e : Bytes 32) :
    (resp.sendMessage2 S e).2.length = msg2Len := by
  rw [NoiseIkResponder.sendMessage2_eq]
  simp only [List.length_append, Bytes.length_val]
  rw [length_encrypt rfl]
  rfl

/-! ### Exchanges that can be evaluated -/

variable (X) in
/-- The strings hashed by initiators up to the decryption of what arrived. -/
def strings (ks : List κ) : List (List UInt8) :=
  ks.flatMap fun k => (X.arrived2 k).elim [] (X.hashed2 k)

variable (X) in
/-- The idealised primitives in a form that is evaluated: all strings hashed are among the strings
of some initiators, which do not collide. -/
def Checked (ks : List κ) : Prop :=
  CollisionFree S.sha256 (X.strings ks) ∧ (∀ k, X.Sent k → X.hashed1 k ⊆ X.strings ks) ∧
    (∀ k, ∀ d ∈ X.arrived2 k, X.hashed2 k d ⊆ X.strings ks) ∧
    (∀ r, ∀ d ∈ X.arrived1 r, X.hashedResp r d ⊆ X.strings ks) ∧
    (∀ r, ∀ d ∈ X.arrived1 r,
      X.Authentic (X.handshake r r d []).respStateS ((d.take 80).drop 32)) ∧
    (∀ k, ∀ d ∈ X.arrived2 k,
      X.Authentic (X.handshake k k [] d).initStateFinal (d.drop 32)) ∧
    ∀ k k', X.Sent k → X.Sent k' →
      pubFromPriv S (X.eSecret k) = pubFromPriv S (X.eSecret k') → k = k'

/-- What was checked of some keys holds of all of them. -/
theorem Checked.ideal {ks : List κ} (h : X.Checked ks) : X.Ideal := by
  obtain ⟨hfree, h1, h2, hresp, hS, hfinal, hfresh⟩ := h
  refine ⟨fun x y hx hy => ?_, hS, hfinal, hfresh⟩
  have hmem : ∀ x, X.Hashed x → x ∈ X.strings ks := by
    rintro x (⟨k, hk, hx⟩ | ⟨k, d, hd, hx⟩ | ⟨r, d, hd, hx⟩)
    · exact h1 k hk hx
    · exact h2 k d hd hx
    · exact hresp r d hd hx
  exact hfree x (hmem x hx) y (hmem y hy)

section Finite

variable [Fintype κ] [DecidableEq κ] [DecidablePred X.Sent]

/-- Whether something was sealed can be decided. -/
instance (q : Sealing) : Decidable (X.Sealed q) := inferInstanceAs (Decidable (_ ∨ _))

/-- Whether a ciphertext is authentic can be decided. -/
instance (st : SymmetricState) (c : List UInt8) : Decidable (X.Authentic st c) :=
  inferInstanceAs (Decidable (∀ p ∈ st.decrypt S c, ∀ q ∈ st.seals p, X.Sealed q))

/-- The check of some keys can be run. -/
instance (ks : List κ) : Decidable (X.Checked ks) :=
  inferInstanceAs (Decidable (_ ∧ _ ∧ _ ∧ _ ∧ _ ∧ _ ∧ _))

end Finite

end Exchange

end LowBand.Crypto
