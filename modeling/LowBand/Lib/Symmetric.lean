import LowBand.Lib.Bytes

/-!
# Ideal symmetric primitives

An `Aead` is an authenticated cipher with 32-byte keys, 12-byte nonces and 16-byte tags, known only
by what decryption accepts. That nobody else can produce a ciphertext is a statement about a run:
`Aead.Authentic log` says that what a decryption accepts is one of the sealings of `log`.

A hash is not injective on all byte strings, so collision freedom is a statement about a run too:
`CollisionFree hash l` for the strings `l` that the run hashes. `chain` feeds the data of a list
into a running hash, and `chain_inj` is the fact that protocols with a transcript hash rest on: two
runs of the same number of steps with one final hash were fed the same data.
-/

namespace Lib

/-! ## Authenticated encryption -/

/-- An authenticated cipher with associated data. -/
structure Aead where
  /-- The ciphertext with its tag, of a key, a nonce, the associated data and a message. -/
  encrypt : Bytes 32 → Bytes 12 → List UInt8 → List UInt8 → List UInt8
  /-- The message of a ciphertext whose tag verifies. -/
  decrypt : Bytes 32 → Bytes 12 → List UInt8 → List UInt8 → Option (List UInt8)
  /-- Decryption accepts exactly the encryption under the same key, nonce and associated data. -/
  decrypt_eq_some : ∀ {k n ad c p}, decrypt k n ad c = some p ↔ c = encrypt k n ad p
  /-- The tag adds 16 bytes. -/
  length_encrypt : ∀ k n ad p, (encrypt k n ad p).length = p.length + 16

/-- What one call of `encrypt` was given. -/
structure Sealing where
  /-- The key. -/
  key : Bytes 32
  /-- The nonce. -/
  nonce : Bytes 12
  /-- The associated data. -/
  aad : List UInt8
  /-- The plaintext. -/
  msg : List UInt8
deriving DecidableEq

namespace Aead

variable (A : Aead)

/-- The ciphertext of a sealing. -/
def ciphertext (s : Sealing) : List UInt8 := A.encrypt s.key s.nonce s.aad s.msg

/-- Ciphertext integrity at one decryption: what it accepts was sealed, under the same key, nonce
and associated data, by one of the sealings of `log`. -/
def Authentic (log : List Sealing) (k : Bytes 32) (n : Bytes 12) (ad c : List UInt8) : Prop :=
  ∀ p, A.decrypt k n ad c = some p → ⟨k, n, ad, p⟩ ∈ log

/-- Whether a ciphertext is authentic can be decided from the log. -/
instance decidableAuthentic (log : List Sealing) (k : Bytes 32) (n : Bytes 12)
    (ad c : List UInt8) : Decidable (A.Authentic log k n ad c) :=
  inferInstanceAs (Decidable (∀ p ∈ A.decrypt k n ad c, (⟨k, n, ad, p⟩ : Sealing) ∈ log))

/-- Decryption undoes encryption. -/
@[simp]
theorem decrypt_encrypt (k : Bytes 32) (n : Bytes 12) (ad p : List UInt8) :
    A.decrypt k n ad (A.encrypt k n ad p) = some p := A.decrypt_eq_some.mpr rfl

/-- A ciphertext that an authentic decryption accepts is the ciphertext of a sealing of the log. -/
theorem Authentic.exists_sealing {A : Aead} {log : List Sealing} {k : Bytes 32} {n : Bytes 12}
    {ad c p : List UInt8} (h : A.Authentic log k n ad c) (hp : A.decrypt k n ad c = some p) :
    ∃ s ∈ log, s.aad = ad ∧ A.ciphertext s = c ∧ s.msg = p :=
  ⟨_, h p hp, rfl, (A.decrypt_eq_some.mp hp).symm, rfl⟩

end Aead

/-- A checksum of `n` bytes: the bytes as the digits of a number, modulo `256^n`. -/
def checksum (n : ℕ) (l : List UInt8) : Bytes n :=
  ⟨leBytes n (l.foldl (fun a b => 257 * a + b.toNat + 1) 0), length_leBytes _ _⟩

/-- The cipher that sends the message in the clear with a checksum over everything as its tag. It
hides nothing, but it decrypts exactly what it encrypted, on which runs can be evaluated. -/
def Aead.clear : Aead where
  encrypt k n ad p := p ++ (checksum 16 (k.val ++ n.val ++ ad ++ p)).val
  decrypt k n ad c :=
    let p := c.take (c.length - 16)
    if c = p ++ (checksum 16 (k.val ++ n.val ++ ad ++ p)).val then some p else none
  decrypt_eq_some {k n ad c p} := by
    simp only [Option.ite_none_right_eq_some, Option.some.injEq]
    constructor
    · rintro ⟨hc, rfl⟩
      exact hc
    · rintro rfl
      simp
  length_encrypt k n ad p := by simp

/-! ## Running hashes -/

/-- No two of the strings `l` collide under the hash. -/
def CollisionFree {β : Type*} (hash : List UInt8 → β) (l : List (List UInt8)) : Prop :=
  ∀ x ∈ l, ∀ y ∈ l, hash x = hash y → x = y

/-- Whether two of some texts collide can be decided. -/
instance {β : Type*} [DecidableEq β] (hash : List UInt8 → β) (l : List (List UInt8)) :
    Decidable (CollisionFree hash l) :=
  inferInstanceAs (Decidable (∀ x ∈ l, ∀ y ∈ l, hash x = hash y → x = y))

section Chain

variable {n : ℕ} (hash : List UInt8 → Bytes n)

/-- The running hash after the data of a list, from `h`: each step hashes the hash so far followed
by the next datum. -/
def chain (h : Bytes n) : List (List UInt8) → Bytes n
  | [] => h
  | d :: ds => chain (hash (h.val ++ d)) ds

/-- The strings that `chain` hashes. -/
def chainInputs (h : Bytes n) : List (List UInt8) → List (List UInt8)
  | [] => []
  | d :: ds => (h.val ++ d) :: chainInputs (hash (h.val ++ d)) ds

/-- The strings hashed along the first part of a list are hashed along the list. -/
theorem chainInputs_subset_append (h : Bytes n) (ds es : List (List UInt8)) :
    chainInputs hash h ds ⊆ chainInputs hash h (ds ++ es) := by
  induction ds generalizing h with
  | nil => exact List.nil_subset _
  | cons d ds ih => exact List.cons_subset_cons _ (ih _)

/-- A datum of a list is hashed behind the hash of the data before it. -/
theorem mem_chainInputs (h : Bytes n) (ds : List (List UInt8)) (d : List UInt8)
    (es : List (List UInt8)) :
    (chain hash h ds).val ++ d ∈ chainInputs hash h (ds ++ d :: es) := by
  induction ds generalizing h with
  | nil => exact List.mem_cons_self
  | cons d' ds ih => exact List.mem_cons_of_mem _ (ih _)

variable {hash}

/-- Without collisions among the strings hashed, chains of one number of steps with one final hash
started at one hash and were fed the same data. -/
theorem chain_inj {l : List (List UInt8)} (hl : CollisionFree hash l) {h h' : Bytes n}
    {ds ds' : List (List UInt8)} (hlen : ds.length = ds'.length)
    (hsub : chainInputs hash h ds ⊆ l) (hsub' : chainInputs hash h' ds' ⊆ l)
    (heq : chain hash h ds = chain hash h' ds') : h = h' ∧ ds = ds' := by
  induction ds generalizing h h' ds' with
  | nil =>
    obtain rfl := List.length_eq_zero_iff.mp hlen.symm
    exact ⟨heq, rfl⟩
  | cons d ds ih =>
    obtain ⟨d', ds', rfl⟩ := List.exists_cons_of_length_pos (l := ds') (by rw [← hlen]; simp)
    simp only [chainInputs, List.cons_subset] at hsub hsub'
    -- the tails started at one hash, so their first strings collide unless they are equal
    obtain ⟨hh, rfl⟩ := ih (by simpa using hlen) hsub.2 hsub'.2 heq
    obtain ⟨rfl, rfl⟩ := Bytes.append_inj (hl _ hsub.1 _ hsub'.1 hh)
    exact ⟨rfl, rfl⟩

end Chain

end Lib
