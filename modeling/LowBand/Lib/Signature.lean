import LowBand.Lib.Bytes

/-!
# Ideal signatures

A `SignatureScheme` has secret keys of 32 bytes, public keys of 32 bytes and signatures of 64, as
Ed25519, and accepts what it signs. That nobody can sign without the key is a statement about a run,
since signatures are shorter than messages: `Ideal signings offered` says, for the signings of a run
and the messages offered in their place, that a signature of the run is valid for an offered message
only when it was made for it, and that different messages of the run have different signatures.
-/

namespace Lib

/-- A signature scheme. -/
structure SignatureScheme where
  /-- The public key of a secret key. -/
  publicKey : Bytes 32 → Bytes 32
  /-- The signature of a message. -/
  sign : Bytes 32 → List UInt8 → Bytes 64
  /-- The byte strings that are public keys. -/
  validKey : Bytes 32 → Bool
  /-- Verification under a public key. -/
  verify : Bytes 32 → List UInt8 → Bytes 64 → Bool
  /-- The public key of a secret key is one. -/
  validKey_publicKey : ∀ key, validKey (publicKey key) = true
  /-- A signature verifies under the public key. -/
  verify_sign : ∀ key msg, verify (publicKey key) msg (sign key msg) = true

/-- What one call of `sign` was given. -/
structure Signing where
  /-- The secret key. -/
  key : Bytes 32
  /-- The message. -/
  msg : List UInt8
deriving DecidableEq

namespace SignatureScheme

/-- The scheme is ideal for the signings of a run and messages offered to the verifiers. -/
structure Ideal (S : SignatureScheme) (signings : List Signing) (offered : Set (List UInt8)) :
    Prop where
  /-- A signature of the run that verifies for an offered message was made for it by the holder of
  the key. -/
  unforged : ∀ s ∈ signings, ∀ m ∈ offered, ∀ pk, S.verify pk m (S.sign s.key s.msg) = true →
    ∃ s' ∈ signings, S.publicKey s'.key = pk ∧ s'.msg = m ∧
      S.sign s'.key s'.msg = S.sign s.key s.msg
  /-- Different messages of the run have different signatures. -/
  distinct : ∀ s ∈ signings, ∀ s' ∈ signings,
    S.sign s.key s.msg = S.sign s'.key s'.msg → s.msg = s'.msg

/-- A signature of the run is valid, of the offered messages, for its own only. -/
theorem Ideal.msg_eq {S : SignatureScheme} {signings : List Signing} {offered : Set (List UInt8)}
    (h : S.Ideal signings offered) {s : Signing} (hs : s ∈ signings) {m : List UInt8}
    (hm : m ∈ offered) {pk : Bytes 32} (hverify : S.verify pk m (S.sign s.key s.msg) = true) :
    m = s.msg := by
  obtain ⟨s', hs', -, rfl, hsign⟩ := h.unforged s hs m hm pk hverify
  exact h.distinct s' hs' s hs hsign

end SignatureScheme

end Lib
