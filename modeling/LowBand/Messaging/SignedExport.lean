import LowBand.Lib.Find
import LowBand.Lib.Reader
import LowBand.Lib.Signature
import LowBand.Messaging.Audit

/-!
# The signed export of the audit log

`export_signed_json` writes the log as a JSON text with the signer's public key, signs that text,
and appends the signature. `verify_signed_export` finds the parts again by searching for the texts
in front of them, from the end. The strings of the entries are written as they are, so they may hold
these texts too.

Both searches find the right place for any log: behind it stand digits and quotes only, and the
letter `g` of the marker does not occur again (`rfind_marker`). So what is verified is the whole
text before the last marker, under the signature behind it, whatever stands in the text
(`verifySignedExport_document`). An export is accepted when the signer is the expected one
(`verifySignedExport_export`), and after a change before the signature the changed text is verified
under the signature of the export, which an ideal scheme refuses (`verifySignedExport_of_ne`). The
verifier's answer does not name the signer.
-/

namespace LowBand.Messaging

open Lib

/-! ## The export -/

/-- `to_string` of an unsigned number. -/
def decimal (n : ℕ) : List UInt8 := (Nat.toDigits 10 n).map fun c => UInt8.ofNat c.toNat

/-- A text in quotes. -/
def quoted (s : List UInt8) : List UInt8 := strBytes "\"" ++ s ++ strBytes "\""

/-- `entry_to_json`. -/
def entryToJson (e : AuditEntry) : List UInt8 :=
  let capField := match e.capability with
    | some c => quoted c
    | none => strBytes "null"
  let idKeyField := match e.identityKey with
    | some k => quoted (hexEncode k.val)
    | none => strBytes "null"
  strBytes "\x7b\"event_type\":\"" ++ e.eventType ++ strBytes "\",\"capability\":" ++ capField ++
    strBytes ",\"identity_key\":" ++ idKeyField ++ strBytes ",\"occurred_at_ms\":" ++
    decimal e.occurredAtMs.toNat ++ strBytes ",\"signature\":\"" ++ hexEncode e.signature.val ++
    strBytes "\"\x7d"

/-- `export_json`. -/
def AuditLog.exportJson (log : AuditLog) : List UInt8 :=
  log.entries.zipIdx.foldl
      (fun buf x => (if 0 < x.2 then buf ++ strBytes "," else buf) ++ entryToJson x.1)
      (strBytes "\x7b\"entries\":[") ++
    strBytes "]\x7d"

/-- The constant `SIG_MARKER`. -/
def sigMarker : List UInt8 := strBytes ",\"signature\":\""

/-- The constant `KEY_MARKER`. -/
def keyMarker : List UInt8 := strBytes "\"signer_pubkey\":\""

/-- What `export_signed_json` signs: the export without its closing brace, and the signer's public
key. -/
def AuditLog.signedPayload (log : AuditLog) (publicKey : Bytes 32) : List UInt8 :=
  let payload := log.exportJson
  let payload := payload.take (payload.length - 1)
  payload ++ (strBytes ",\"signer_pubkey\":\"" ++ hexEncode publicKey.val ++ strBytes "\"")

/-- A text with the signature behind it. -/
def signedDocument (payload : List UInt8) (sig : Bytes 64) : List UInt8 :=
  payload ++ strBytes ",\"signature\":\"" ++ hexEncode sig.val ++ strBytes "\"\x7d"

/-- `export_signed_json`. -/
def AuditLog.exportSignedJson (S : SignatureScheme) (log : AuditLog) (signingKey : Bytes 32) :
    List UInt8 :=
  let payload := log.signedPayload (S.publicKey signingKey)
  signedDocument payload (S.sign signingKey payload)

/-! ## The verifier -/

/-- `hex_decode`: exactly `n` bytes of digits. -/
def hexDecode (n : ℕ) (s : List UInt8) : Option (Bytes n) :=
  if s.length != n * 2 || !s.all (· < 128) then none
  else do
    let out ← Lib.hexDecode s
    Bytes.tryFrom n out

/-- `verify_signed_export`; each part that is missing or malformed refuses the document. -/
def verifySignedExport (S : SignatureScheme) (document : List UInt8)
    (expectedSigner : Option (Bytes 32)) : Bool :=
  Option.getD (do
    let sigAt ← rfind sigMarker document
    let payload := document.take sigAt
    let sigHex ← stripSuffix (strBytes "\"\x7d") (document.drop (sigAt + sigMarker.length))
    let keyAt ← rfind keyMarker payload
    let keyHex ← stripSuffix (strBytes "\"") (payload.drop (keyAt + keyMarker.length))
    let sigBytes ← hexDecode 64 sigHex
    let keyBytes ← hexDecode 32 keyHex
    if expectedSigner.any (· ≠ keyBytes) then return false
    if !S.validKey keyBytes then return false
    return S.verify keyBytes payload sigBytes) false

/-! ## Finding the parts -/

/-- Digits are not the letter `g`, and are ASCII. -/
theorem hexEncode_ascii {bs : List UInt8} {c : UInt8} (h : c ∈ hexEncode bs) :
    c ≠ 103 ∧ c < 128 := by
  have hall : ∀ d < 16, digitChar d ≠ 103 ∧ digitChar d < 128 := by decide
  obtain ⟨d, hd, rfl⟩ := mem_hexEncode h
  exact hall d hd

/-- The bytes written as digits are read back. -/
theorem hexDecode_hexEncode {n : ℕ} (b : Bytes n) : hexDecode n (hexEncode b.val) = some b := by
  unfold hexDecode
  have hlen : (hexEncode b.val).length = n * 2 := by
    rw [length_hexEncode, b.length_val, Nat.mul_comm]
  have hascii : (hexEncode b.val).all (· < 128) = true := by
    rw [List.all_eq_true]
    exact fun c hc => decide_eq_true (hexEncode_ascii hc).2
  rw [hlen, hascii, bne_self_eq_false, Bool.not_true, Bool.or_self, if_neg Bool.false_ne_true,
    Lib.hexDecode_hexEncode]
  exact Bytes.tryFrom_eq_some.mpr rfl

/-- A marker with one `g`, in front of digits and a text without it, is the last one, whatever the
text before. -/
theorem rfind_marker {marker p q tail : List UInt8} (hmarker : marker = p ++ 103 :: q)
    (hq : 103 ∉ q) (htail : 103 ∉ tail) (text bs : List UInt8) :
    rfind marker (text ++ (marker ++ (hexEncode bs ++ tail))) = some text.length := by
  have hg : 103 ∉ q ++ (hexEncode bs ++ tail) := by
    rw [List.mem_append, List.mem_append, not_or, not_or]
    exact ⟨hq, fun h => (hexEncode_ascii h).1 rfl, htail⟩
  rw [hmarker]
  exact rfind_append hg text

/-- The last marker of the signature is the one in front of it. -/
theorem rfind_sigMarker (payload : List UInt8) (sig : Bytes 64) :
    rfind sigMarker (signedDocument payload sig) = some payload.length := by
  have hmarker : sigMarker = strBytes ",\"si" ++ 103 :: strBytes "nature\":\"" := by decide
  have hdoc : signedDocument payload sig
      = payload ++ (sigMarker ++ (hexEncode sig.val ++ strBytes "\"\x7d")) := by
    simp only [signedDocument, sigMarker, List.append_assoc]
  rw [hdoc]
  exact rfind_marker hmarker (by decide) (by decide) payload sig.val

/-- The last marker of the key is the one in front of it. -/
theorem rfind_keyMarker (text : List UInt8) (key : Bytes 32) :
    rfind keyMarker (text ++ (keyMarker ++ (hexEncode key.val ++ strBytes "\"")))
      = some text.length := by
  have hmarker : keyMarker = strBytes "\"si" ++ 103 :: strBytes "ner_pubkey\":\"" := by decide
  exact rfind_marker hmarker (by decide) (by decide) text key.val

/-- The key that the verifier reads from a text. -/
def signerKey (payload : List UInt8) : Option (Bytes 32) := do
  let keyAt ← rfind keyMarker payload
  let keyHex ← stripSuffix (strBytes "\"") (payload.drop (keyAt + keyMarker.length))
  hexDecode 32 keyHex

/-- Of a text with a signature behind it, the verifier checks the signature of the whole text, under
the key that it reads from the text. -/
theorem verifySignedExport_document (S : SignatureScheme) (payload : List UInt8) (sig : Bytes 64)
    (expectedSigner : Option (Bytes 32)) :
    verifySignedExport S (signedDocument payload sig) expectedSigner = true ↔
      ∃ key, signerKey payload = some key ∧ (∀ k ∈ expectedSigner, k = key) ∧
        S.validKey key = true ∧ S.verify key payload sig = true := by
  -- The marker of the signature is found where the export put it.
  have hpayload : (signedDocument payload sig).take payload.length = payload := by
    unfold signedDocument
    rw [List.append_assoc, List.append_assoc, List.take_left]
  have hsig : (signedDocument payload sig).drop (payload.length + sigMarker.length)
      = hexEncode sig.val ++ strBytes "\"\x7d" := by
    have hdoc : signedDocument payload sig
        = (payload ++ sigMarker) ++ (hexEncode sig.val ++ strBytes "\"\x7d") :=
      List.append_assoc _ _ _
    rw [hdoc, ← List.length_append, List.drop_left]
  unfold verifySignedExport signerKey
  simp only [rfind_sigMarker, hpayload, hsig, stripSuffix_append, hexDecode_hexEncode,
    Option.bind_eq_bind, Option.bind_some]
  -- The signer's key is read from the payload, or the check fails.
  cases hkeyAt : rfind keyMarker payload with
  | none => simp
  | some keyAt =>
    cases hkeyHex : stripSuffix (strBytes "\"") (payload.drop (keyAt + keyMarker.length)) with
    | none => simp [hkeyHex]
    | some keyHex =>
      cases hkey : hexDecode 32 keyHex with
      | none => simp [hkeyHex, hkey]
      | some key =>
        simp only [hkeyHex, hkey, Option.bind_some, Option.some.injEq, exists_eq_left']
        have hany : expectedSigner.any (· ≠ key) = true ↔ ¬ ∀ k ∈ expectedSigner, k = key := by
          cases expectedSigner <;> simp
        by_cases hexpected : ∀ k ∈ expectedSigner, k = key
        · rw [if_neg (hany.not_left.mpr hexpected)]
          rw [and_iff_right hexpected]
          cases S.validKey key <;> simp
        · rw [if_pos (hany.mpr hexpected)]
          exact iff_of_false Bool.false_ne_true fun h => hexpected h.1

/-- The key is read from the end of the text. -/
theorem signerKey_append (text : List UInt8) (key : Bytes 32) :
    signerKey (text ++ (keyMarker ++ (hexEncode key.val ++ strBytes "\""))) = some key := by
  have hdrop : (text ++ (keyMarker ++ (hexEncode key.val ++ strBytes "\""))).drop
      (text.length + keyMarker.length) = hexEncode key.val ++ strBytes "\"" := by
    rw [← List.append_assoc, ← List.length_append, List.drop_left]
  unfold signerKey
  simp only [rfind_keyMarker, hdrop, stripSuffix_append, hexDecode_hexEncode, Option.bind_eq_bind,
    Option.bind_some]

/-- The signer's key is read from what was signed. -/
theorem signerKey_signedPayload (log : AuditLog) (key : Bytes 32) :
    signerKey (log.signedPayload key) = some key := by
  have hcomma : strBytes ",\"signer_pubkey\":\"" = strBytes "," ++ keyMarker := by decide
  unfold AuditLog.signedPayload
  dsimp only
  rw [hcomma, List.append_assoc, List.append_assoc, ← List.append_assoc]
  exact signerKey_append _ key

/-! ## Exports are accepted and changes refused -/

/-- An export is accepted exactly when no other signer is expected. -/
theorem verifySignedExport_export (S : SignatureScheme) (log : AuditLog) (signingKey : Bytes 32)
    (expectedSigner : Option (Bytes 32)) :
    verifySignedExport S (log.exportSignedJson S signingKey) expectedSigner = true ↔
      ∀ k ∈ expectedSigner, k = S.publicKey signingKey := by
  unfold AuditLog.exportSignedJson
  rw [verifySignedExport_document, signerKey_signedPayload]
  constructor
  · rintro ⟨key, hkey, hexpected, -, -⟩
    obtain rfl := Option.some.inj hkey
    exact hexpected
  · intro hexpected
    exact ⟨_, rfl, hexpected, S.validKey_publicKey _, S.verify_sign _ _⟩

/-- Another text under the signature of an export is refused. -/
theorem verifySignedExport_of_ne {S : SignatureScheme} {log : AuditLog} {signingKey : Bytes 32}
    {signings : List Signing} {offered : Set (List UInt8)} (hideal : S.Ideal signings offered)
    (hsigned : ⟨signingKey, log.signedPayload (S.publicKey signingKey)⟩ ∈ signings)
    {payload : List UInt8} (hoffered : payload ∈ offered)
    (hne : payload ≠ log.signedPayload (S.publicKey signingKey))
    (expectedSigner : Option (Bytes 32)) :
    verifySignedExport S
      (signedDocument payload (S.sign signingKey (log.signedPayload (S.publicKey signingKey))))
      expectedSigner = false := by
  rw [← Bool.not_eq_true, verifySignedExport_document]
  rintro ⟨key, -, -, -, hverify⟩
  exact hne (hideal.msg_eq hsigned hoffered hverify)

/-- The texts that differ from a text in at most one byte. -/
def byteChanges (payload : List UInt8) : Set (List UInt8) :=
  Set.range fun x : ℕ × UInt8 => payload.set x.1 x.2

/-- For every log: the export is accepted exactly when no signer or the signer is expected, and
after any change of a byte of what was signed it is refused, under a signature scheme that is ideal
for the changed texts. -/
theorem signed_export_verified (S : SignatureScheme) (log : AuditLog) (signingKey : Bytes 32)
    (signings : List Signing)
    (hsigned : ⟨signingKey, log.signedPayload (S.publicKey signingKey)⟩ ∈ signings)
    (hideal : S.Ideal signings (byteChanges (log.signedPayload (S.publicKey signingKey)))) :
    (∀ expectedSigner,
      verifySignedExport S (log.exportSignedJson S signingKey) expectedSigner = true ↔
        ∀ k ∈ expectedSigner, k = S.publicKey signingKey) ∧
    ∀ i b expectedSigner, i < (log.signedPayload (S.publicKey signingKey)).length →
      (log.exportSignedJson S signingKey)[i]? ≠ some b →
      verifySignedExport S ((log.exportSignedJson S signingKey).set i b) expectedSigner
        = false := by
  refine ⟨verifySignedExport_export S log signingKey, ?_⟩
  intro i b expectedSigner hi hb
  unfold AuditLog.exportSignedJson signedDocument at hb ⊢
  simp only [List.append_assoc] at hb ⊢
  -- The changed byte lies in the payload, so the payload differs from the signed one.
  rw [List.getElem?_append_left hi] at hb
  rw [List.set_append_left _ _ hi, ← List.append_assoc, ← List.append_assoc]
  refine verifySignedExport_of_ne hideal hsigned ⟨(i, b), rfl⟩ ?_ expectedSigner
  intro heq
  have hset := List.getElem?_set_self (a := b) hi
  exact hb (heq ▸ hset)

/-! ## A signed export -/

/-- A log whose strings hold the markers. -/
def markerLog : AuditLog :=
  .build (.ofList 32 (strBytes "audit-test-key-for-unit-tests-xx"))
    [⟨strBytes "a\",\"signature\":\"", some (strBytes "\"signer_pubkey\":\""), none, 1000⟩]

/-- A secret key. -/
def sampleSigningKey : Bytes 32 := .ofList 32 (strBytes "ed25519-identity-key-32-bytes-ok")

/-- Its Ed25519 public key. -/
def samplePublicKey : Bytes 32 :=
  .ofList 32 ((Lib.hexDecode (strBytes
    "3ef197f94194e3f5d9ad84a6855d5f6f426ac4b1e10d4b8d90c0ea6cd3804515")).getD [])

/-- What is signed of the log. -/
def samplePayload : List UInt8 := markerLog.signedPayload samplePublicKey

/-- Its Ed25519 signature. -/
def sampleSignature : Bytes 64 :=
  .ofList 64 ((Lib.hexDecode (
    strBytes "818cd11e2bb11740b498942e2bf735daec13ecc1633575559efc0ff6918ece70" ++
    strBytes "98277f8266f657ee5eb23128dbd2f30ebc4f748033c03ac8daa364fc75235904")).getD [])

/-- The signature of a message under a public key: that of Ed25519 for the sample, and for the
others a checksum, whose last byte no Ed25519 signature has. -/
def sampleSign (pk : Bytes 32) (msg : List UInt8) : Bytes 64 :=
  if pk = samplePublicKey ∧ msg = samplePayload then sampleSignature
  else ⟨(checksum 63 (pk.val ++ msg)).val ++ [255], by simp⟩

/-- A scheme that does what Ed25519 does on the sample. -/
def sampleScheme : SignatureScheme where
  publicKey key := if key = sampleSigningKey then samplePublicKey else key
  sign key msg := sampleSign (if key = sampleSigningKey then samplePublicKey else key) msg
  validKey _ := true
  verify pk msg sig := decide (sig = sampleSign pk msg)
  validKey_publicKey _ := rfl
  verify_sign _ _ := decide_eq_true rfl

/-- The sample keys belong together. -/
theorem sampleScheme_publicKey : sampleScheme.publicKey sampleSigningKey = samplePublicKey := by
  simp [sampleScheme]

/-- Only the sample has its signature. -/
theorem sampleSign_eq {pk : Bytes 32} {msg : List UInt8}
    (h : sampleSign pk msg = sampleSignature) : pk = samplePublicKey ∧ msg = samplePayload := by
  by_contra hne
  unfold sampleSign at h
  rw [if_neg hne] at h
  have hlast : sampleSignature.val.getLast? = some 255 := by
    rw [← h]
    exact List.getLast?_concat
  revert hlast
  decide +kernel

/-- The scheme is ideal when the sample is the only message that was signed. -/
theorem sampleScheme_ideal (offered : Set (List UInt8)) :
    sampleScheme.Ideal [⟨sampleSigningKey, samplePayload⟩] offered := by
  have hsign : sampleScheme.sign sampleSigningKey samplePayload = sampleSignature := by
    simp [sampleScheme, sampleSign]
  constructor
  · intro s hs m _ pk hverify
    rw [List.mem_singleton.mp hs, hsign] at hverify ⊢
    have hsig : sampleSignature = sampleSign pk m := by simpa [sampleScheme] using hverify
    obtain ⟨hpk, hm⟩ := sampleSign_eq hsig.symm
    exact ⟨⟨sampleSigningKey, samplePayload⟩, List.mem_singleton_self _,
      sampleScheme_publicKey.trans hpk.symm, hm.symm, hsign⟩
  · intro s hs s' hs' _
    rw [List.mem_singleton.mp hs, List.mem_singleton.mp hs']

/-- The export of the sample log is accepted, and refused after a change of any byte. -/
theorem signed_export_verified_sample :
    (∀ expectedSigner,
      verifySignedExport sampleScheme (markerLog.exportSignedJson sampleScheme sampleSigningKey)
          expectedSigner = true ↔
        ∀ k ∈ expectedSigner, k = sampleScheme.publicKey sampleSigningKey) ∧
    ∀ i b expectedSigner,
      i < (markerLog.signedPayload (sampleScheme.publicKey sampleSigningKey)).length →
      (markerLog.exportSignedJson sampleScheme sampleSigningKey)[i]? ≠ some b →
      verifySignedExport sampleScheme
        ((markerLog.exportSignedJson sampleScheme sampleSigningKey).set i b) expectedSigner
        = false := by
  refine signed_export_verified sampleScheme markerLog sampleSigningKey
    [⟨sampleSigningKey, samplePayload⟩] ?_ (sampleScheme_ideal _)
  rw [sampleScheme_publicKey]
  exact List.mem_singleton_self _

/-- The result of the verifier is not the signer's key: it is the same for two signers. -/
theorem not_returns_signer :
    ¬ ∃ signer : Bool → Bytes 32, ∀ (log : AuditLog) (signingKey : Bytes 32),
      signer (verifySignedExport sampleScheme (log.exportSignedJson sampleScheme signingKey) none)
        = sampleScheme.publicKey signingKey := by
  rintro ⟨signer, hsigner⟩
  have haccepted : ∀ key, signer true = sampleScheme.publicKey key := by
    intro key
    have hverify : verifySignedExport sampleScheme
        (markerLog.exportSignedJson sampleScheme key) none = true :=
      (verifySignedExport_export _ _ _ _).mpr fun k hk => absurd hk (Option.not_mem_none k)
    rw [← hsigner markerLog key, hverify]
  have hsame := (haccepted (Bytes.fill 32 0)).symm.trans (haccepted (Bytes.fill 32 1))
  revert hsame
  decide +kernel

end LowBand.Messaging
