import LowBand.Crypto.UdpSession
import LowBand.Lib.Reader
import LowBand.Lowbandd.FileTransfer

/-!
# The frames of a file transfer

The wire format of `XferFrame`, from `file_transfer.rs`. The name of an offer is its UTF-8 bytes.
`decode_ok` says exactly which bytes are decoded to a frame: those that begin with its encoding,
when its fields keep to the caps.

A frame is sealed with 28 bytes of overhead and read into a buffer of 8192 bytes. Fragments are far
below that, but an offer has 32 bytes for each fragment of the file, so `transfer_fits_iff` depends
on the size of the file.
-/

namespace LowBand.Lowbandd

open Lib Xfer

/-- `KIND_OFFER`. -/
def kindOffer : UInt8 := 0x10

/-- `KIND_FRAGMENT`. -/
def kindFragment : UInt8 := 0x11

/-- `KIND_COMPLETE`. -/
def kindComplete : UInt8 := 0x12

/-- `MAX_FRAGMENTS`. -/
def maxFragments : ℕ := 1048576

/-- `take_u16`. -/
def takeU16 : Reader XferError UInt16 := Reader.takeU16 .truncated

/-- `take_u32`. -/
def takeU32 : Reader XferError UInt32 := Reader.takeU32 .truncated

/-- `take_u64`. -/
def takeU64 : Reader XferError UInt64 := Reader.takeU64 .truncated

/-- `take_hash`. -/
def takeHash : Reader XferError ChunkHash := do
  let h ← Reader.takeN .truncated 32
  pure (Bytes.ofList 32 h)

/-- `take_str`, as the bytes of the string. -/
def takeStr : Reader XferError (List UInt8) := do
  let len ← takeU16
  let h ← Reader.takeN .truncated len.toNat
  let s ← Reader.okOr (fromUtf8 h) .truncated
  pure (strBytes s)

namespace XferFrame

/-- `XferFrame::encode`. -/
def encode : XferFrame → List UInt8
  | .offer o =>
    kindOffer :: (leBytes 2 o.name.length ++ o.name ++ leBytes 8 o.totalBytes.toNat ++
      leBytes 4 o.fragHashes.length ++ o.fragHashes.flatMap Bytes.val ++ o.wholeHash.val)
  | .fragment index data =>
    kindFragment :: (leBytes 4 index.toNat ++ leBytes 2 data.length ++ data)
  | .complete => [kindComplete]

/-- The fields of a frame, after its kind. -/
def takeFields (kind : UInt8) : Reader XferError XferFrame :=
  if kind = kindOffer then do
    let name ← takeStr
    let totalBytes ← takeU64
    let count ← takeU32
    Reader.refuseIf (count.toNat > maxFragments) .tooLarge
    let fragHashes ← takeHash.times count.toNat
    let wholeHash ← takeHash
    pure (.offer ⟨name, totalBytes, fragHashes, wholeHash⟩)
  else if kind = kindFragment then do
    let index ← takeU32
    let len ← takeU16
    Reader.refuseIf (len.toNat > fragmentLen) .tooLarge
    let data ← Reader.takeN .truncated len.toNat
    pure (.fragment index data)
  else if kind = kindComplete then pure .complete
  else throw (.unknownKind kind)

/-- A frame is read from the front of the bytes. -/
def take : Reader XferError XferFrame := do
  let kind ← Reader.takeByte .truncated
  takeFields kind

/-- `XferFrame::decode`. -/
def decode (buf : List UInt8) : Except XferError XferFrame := Reader.decode take buf

/-- The name of an offer is text with a 16-bit length, and the fragments keep to their caps. -/
def WithinCaps : XferFrame → Prop
  | .offer o => (∃ s, o.name = strBytes s) ∧ o.name.length < 2 ^ 16 ∧
    o.fragHashes.length ≤ maxFragments
  | .fragment _ data => data.length ≤ fragmentLen
  | .complete => True

end XferFrame

/-! ## What is decoded -/

/-- A hash is read from its bytes. -/
theorem takeHash_ok {bs : List UInt8} {h : ChunkHash} {rest : List UInt8} :
    takeHash bs = .ok (h, rest) ↔ True ∧ bs = h.val ++ rest := by
  simp only [takeHash, Reader.bind_ok, Reader.takeN_ok, Reader.pure_ok, true_and]
  constructor
  · rintro ⟨head, _, ⟨hlen, rfl⟩, rfl, rfl⟩
    rw [Bytes.ofList_val hlen]
  · rintro rfl
    exact ⟨h.val, rest, ⟨h.length_val, rfl⟩, Bytes.ofList_val_self h, rfl⟩

/-- A hash is read as its bytes. -/
theorem reads_takeHash : takeHash.Reads (fun _ => True) Bytes.val := takeHash_ok

/-- A text is read from its length and its bytes. -/
theorem takeStr_ok {bs name rest : List UInt8} :
    takeStr bs = .ok (name, rest) ↔ ((∃ s, name = strBytes s) ∧ name.length < 2 ^ 16) ∧
      bs = leBytes 2 name.length ++ (name ++ rest) := by
  simp only [takeStr, takeU16, Reader.bind_ok, Reader.takeU16_ok, Reader.takeN_ok, Reader.okOr_ok,
    Reader.pure_ok, fromUtf8_eq_some]
  constructor
  · rintro ⟨len, _, rfl, _, _, ⟨hlen, rfl⟩, s, _, ⟨rfl, rfl⟩, rfl, rfl⟩
    rw [hlen]
    exact ⟨⟨⟨s, rfl⟩, len.toNat_lt⟩, rfl⟩
  · rintro ⟨⟨⟨s, rfl⟩, hlt⟩, rfl⟩
    have hlen : (UInt16.ofNat (strBytes s).length).toNat = (strBytes s).length :=
      UInt16.toNat_ofNat_of_lt' hlt
    exact ⟨UInt16.ofNat (strBytes s).length, _, by rw [hlen], strBytes s, rest, ⟨hlen.symm, rfl⟩,
      s, rest, ⟨rfl, rfl⟩, rfl, rfl⟩

namespace XferFrame

/-- What is read is within the caps, and its encoding was at the front of the bytes. -/
theorem of_take {buf : List UInt8} {f : XferFrame} {rest : List UInt8}
    (h : take buf = .ok (f, rest)) : f.WithinCaps ∧ buf = f.encode ++ rest := by
  simp only [take, takeFields, takeU16, takeU32, takeU64, Reader.bind_ok, Reader.takeByte_ok] at h
  obtain ⟨kind, mid, rfl, h⟩ := h
  -- One case for each kind byte, and a refusal of all others.
  split_ifs at h with hoffer hfragment hcomplete
  · simp only [Reader.bind_ok, Reader.pure_ok, takeStr_ok, Reader.takeU64_ok, Reader.takeU32_ok,
      Reader.refuseIf_ok, reads_takeHash.times_ok, takeHash_ok] at h
    obtain ⟨name, _, ⟨⟨htext, hname⟩, rfl⟩, total, _, rfl, count, _, rfl, _, _, ⟨hle, rfl⟩,
      hashes, _, ⟨hlen, -, rfl⟩, whole, _, ⟨-, rfl⟩, rfl, rfl⟩ := h
    refine ⟨⟨htext, hname, hlen ▸ Nat.not_lt.mp hle⟩, ?_⟩
    rw [hoffer, encode, hlen]
    simp only [List.cons_append, List.append_assoc]
  · simp only [Reader.bind_ok, Reader.pure_ok, Reader.takeU32_ok, Reader.takeU16_ok,
      Reader.refuseIf_ok, Reader.takeN_ok] at h
    obtain ⟨index, _, rfl, len, _, rfl, _, _, ⟨hle, rfl⟩, data, _, ⟨hlen, rfl⟩, rfl, rfl⟩ := h
    refine ⟨hlen.trans_le (Nat.not_lt.mp hle), ?_⟩
    rw [hfragment, encode, hlen]
    simp only [List.cons_append, List.append_assoc]
  · obtain ⟨rfl, rfl⟩ := Reader.pure_ok.mp h
    exact ⟨trivial, by rw [hcomplete]; rfl⟩
  · exact (Reader.throw_ok.mp h).elim

/-- A frame within the caps is read from its encoding. -/
theorem take_encode {f : XferFrame} (hcaps : f.WithinCaps) (rest : List UInt8) :
    take (f.encode ++ rest) = .ok (f, rest) := by
  simp only [take, takeFields, takeU16, takeU32, takeU64, Reader.bind_ok, Reader.takeByte_ok]
  cases f with
  -- The caps keep the counts within their fields.
  | offer o =>
    obtain ⟨name, total, hashes, whole⟩ := o
    obtain ⟨htext, hname, hle⟩ := hcaps
    have hlen : (UInt32.ofNat hashes.length).toNat = hashes.length :=
      UInt32.toNat_ofNat_of_lt' (hle.trans_lt (by decide))
    refine ⟨kindOffer, _, rfl, ?_⟩
    simp only [if_true, Reader.bind_ok, Reader.pure_ok, takeStr_ok, Reader.takeU64_ok,
      Reader.takeU32_ok, Reader.refuseIf_ok, reads_takeHash.times_ok, takeHash_ok]
    refine ⟨name, _, ⟨⟨htext, hname⟩, ?_⟩, total, _, rfl, UInt32.ofNat hashes.length, _, rfl, (),
      _, ⟨?_, rfl⟩, hashes, _, ⟨hlen.symm, fun _ _ => trivial, rfl⟩, whole, rest, ⟨trivial, rfl⟩,
      rfl, rfl⟩
    · rw [hlen]
      change (_ : List UInt8) ++ rest = _
      simp only [List.append_assoc]
    · rw [hlen]
      exact Nat.not_lt.mpr hle
  | fragment index data =>
    have hle : data.length ≤ fragmentLen := hcaps
    have hlen : (UInt16.ofNat data.length).toNat = data.length :=
      UInt16.toNat_ofNat_of_lt' (hle.trans_lt (by decide))
    refine ⟨kindFragment, _, rfl, ?_⟩
    rw [if_neg (by decide), if_pos rfl]
    simp only [Reader.bind_ok, Reader.pure_ok, Reader.takeU32_ok, Reader.takeU16_ok,
      Reader.refuseIf_ok, Reader.takeN_ok]
    refine ⟨index, _, ?_, UInt16.ofNat data.length, _, rfl, (), _, ⟨?_, rfl⟩, data, rest,
      ⟨hlen.symm, rfl⟩, rfl, rfl⟩
    · rw [hlen]
      change (_ : List UInt8) ++ rest = _
      simp only [List.append_assoc]
    · rw [hlen]
      exact Nat.not_lt.mpr hle
  | complete =>
    refine ⟨kindComplete, _, rfl, ?_⟩
    rw [if_neg (by decide), if_neg (by decide), if_pos rfl]
    exact Reader.pure_ok.mpr ⟨rfl, rfl⟩

/-- A frame is read from the bytes that begin with its encoding, when it is within the caps. -/
theorem reads_take : take.Reads WithinCaps encode :=
  ⟨of_take, fun ⟨hcaps, h⟩ => h ▸ take_encode hcaps _⟩

/-- Bytes are decoded to a frame exactly when they begin with its encoding and it is within the
caps. -/
theorem decode_ok {buf : List UInt8} {f : XferFrame} :
    decode buf = .ok f ↔ f.WithinCaps ∧ f.encode <+: buf := reads_take.decode_ok

end XferFrame

/-! ## Sealed frames -/

open Crypto in
/-- Sealing adds the overhead of the datagram cipher. -/
theorem length_sendDatagram (A : Aead) (s : SecureSession) (plaintext : List UInt8) :
    (s.sendDatagram A plaintext).1.length = plaintext.length + relayGuardOverheadBytes := by
  simp only [SecureSession.sendDatagram, DatagramCipher.sealDatagram, List.length_append,
    Bytes.length_val, A.length_encrypt, relayGuardOverheadBytes]
  omega

/-- The frame, sealed by the session, fits the buffer of the peer's `recv`. -/
def XferFrame.Fits (A : Aead) (s : Crypto.SecureSession) (f : XferFrame) : Prop :=
  (s.sendDatagram A f.encode).1.length ≤ Crypto.SecureSession.recvBufLen

/-- An offer has 32 bytes for each fragment. -/
theorem length_encode_offer (o : Offer) :
    (XferFrame.offer o).encode.length = 47 + o.name.length + 32 * o.fragHashes.length := by
  have hhashes : (o.fragHashes.flatMap Bytes.val).length = 32 * o.fragHashes.length := by
    rw [length_flatMap_of_length Bytes.length_val, Nat.mul_comm]
  simp only [XferFrame.encode, List.length_cons, List.length_append, length_leBytes, hhashes,
    Bytes.length_val]
  omega

/-- Every frame of a transfer but the offer is short. -/
theorem length_encode_le {hash : List UInt8 → ChunkHash} {name data : List UInt8} {f : XferFrame}
    (hf : f ∈ sendFile hash name data) (hoffer : f ≠ .offer (offerOf hash name data)) :
    f.encode.length ≤ 7 + fragmentLen := by
  simp only [sendFile, List.cons_append, List.mem_cons, List.mem_append, List.mem_mapIdx,
    List.not_mem_nil, or_false] at hf
  rcases hf with rfl | ⟨i, hi, rfl⟩ | rfl
  · exact absurd rfl hoffer
  · simp only [XferFrame.encode, List.length_cons, List.length_append, length_leBytes,
      getElem_chunks]
    have hlen := length_chunk_le fragmentLen i data
    omega
  · decide

/-- The offer of a file has a hash for each KiB begun. -/
theorem length_fragHashes_offerOf (hash : List UInt8 → ChunkHash) (name data : List UInt8) :
    (offerOf hash name data).fragHashes.length = (data.length + 1023) / 1024 := by
  simp [offerOf, length_chunks, fragmentLen]

/-- All frames of a transfer fit the buffer of the peer exactly when the name and 32 bytes for each
KiB of the file are at most 8117 bytes. -/
theorem transfer_fits_iff (A : Aead) (s : Crypto.SecureSession) (hash : List UInt8 → ChunkHash)
    (name data : List UInt8) :
    (∀ f ∈ sendFile hash name data, f.Fits A s) ↔
      name.length + 32 * ((data.length + 1023) / 1024) ≤ 8117 := by
  -- The overhead of an offer is 47 bytes and that of the seal 28.
  have hoffer : (XferFrame.offer (offerOf hash name data)).Fits A s ↔
      name.length + 32 * ((data.length + 1023) / 1024) ≤ 8117 := by
    unfold XferFrame.Fits
    rw [length_sendDatagram, length_encode_offer, length_fragHashes_offerOf]
    change 47 + name.length + _ + 28 ≤ 8192 ↔ _
    omega
  constructor
  · intro h
    exact hoffer.mp (h _ (by simp [sendFile]))
  · intro h f hf
    by_cases hne : f = .offer (offerOf hash name data)
    · rw [hne]
      exact hoffer.mpr h
    · -- The other frames are far below the limit.
      have hle := length_encode_le hf hne
      unfold XferFrame.Fits
      rw [length_sendDatagram]
      exact (Nat.add_le_add_right hle _).trans (by decide)

/-- The offer of a file of 259073 bytes, named `f`, is 8204 bytes long when it is sealed. -/
theorem offer_cut (hash : List UInt8 → ChunkHash) {data : List UInt8}
    (hdata : data.length = 259073) :
    XferFrame.offer (offerOf hash [102] data) ∈ sendFile hash [102] data ∧
      ∀ (A : Aead) (s : Crypto.SecureSession),
        (s.sendDatagram A (XferFrame.offer (offerOf hash [102] data)).encode).1.length = 8204 ∧
          ¬ (XferFrame.offer (offerOf hash [102] data)).Fits A s := by
  refine ⟨by simp [sendFile], fun A s => ?_⟩
  have hlen : (s.sendDatagram A (XferFrame.offer (offerOf hash [102] data)).encode).1.length =
      8204 := by
    rw [length_sendDatagram, length_encode_offer, length_fragHashes_offerOf, hdata]
    rfl
  refine ⟨hlen, ?_⟩
  rw [XferFrame.Fits, hlen]
  decide

/-- A file of one byte over 253 KiB, named `f`: its offer is 8204 bytes long when it is sealed. -/
theorem large_offer_cut :
    let data : List UInt8 := List.replicate 259073 0
    let offer := XferFrame.offer (offerOf (fun _ => .fill 32 0) [102] data)
    offer ∈ sendFile (fun _ => .fill 32 0) [102] data ∧
      ∀ (A : Aead) (s : Crypto.SecureSession), (s.sendDatagram A offer.encode).1.length = 8204 ∧
        ¬ offer.Fits A s :=
  -- Stated for every content of the size, so that the list is not unfolded.
  offer_cut _ List.length_replicate

end LowBand.Lowbandd
