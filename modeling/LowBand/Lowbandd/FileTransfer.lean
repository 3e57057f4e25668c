import Mathlib.Order.Interval.Finset.Nat
import LowBand.Xfer.Resume

/-!
# File transfer over the session

`core/lowbandd/src/file_transfer.rs` sends a file as an offer, 1 KiB fragments, and a completion
frame, and receives it with a `FileReceiver` that writes accepted fragments into the destination
file and records progress in a `ResumableTransfer` sidecar. The model keeps both files' contents
explicitly (`Files`), and BLAKE3 is a parameter `hash`.

Two results are about whole runs of a receiver. Integrity (`receiver_integrity`): whatever frames
arrive and wherever the receiver is restarted, a reported completion means that the destination
hashes to the whole-file hash of the offer in force, and a rejected frame changes nothing. Recovery
(`recovers_iff`): a fresh receiver that is fed a file's complete frame sequence ends with the file
exactly when the sidecar's recorded fragments are really in the destination. The sidecar is
believed without looking at the destination, so a state in which they disagree makes every retry
fail (`stale_sidecar_blocks_recovery`).
-/

namespace LowBand.Lowbandd

open Lib Xfer

/-- `FRAGMENT_LEN`, the wire fragment size in bytes. -/
def fragmentLen : ℕ := 1024

/-- The fields of an offer: the file's name in UTF-8, its size, and its hashes. -/
structure Offer where
  /-- File name. -/
  name : List UInt8
  /-- Size of the file. -/
  totalBytes : UInt64
  /-- BLAKE3 of each fragment. -/
  fragHashes : List ChunkHash
  /-- BLAKE3 of the whole file. -/
  wholeHash : ChunkHash
deriving DecidableEq

/-- A framed file-transfer message. -/
inductive XferFrame
  | offer (o : Offer)
  | fragment (index : UInt32) (data : List UInt8)
  | complete
deriving DecidableEq

/-- What applying one frame did. -/
inductive Progress
  | started (remaining : ℕ)
  | fragment (delivered total : ℕ)
  | duplicate
  | complete
  | incomplete (remaining : ℕ)
deriving DecidableEq

/-- Errors of framing and reception. -/
inductive XferError
  | io (e : IoError)
  | truncated
  | tooLarge
  | unknownKind (kind : UInt8)
  | noOffer
  | badIndex
  | hashMismatch (index : UInt32)
  | wholeHashMismatch
deriving DecidableEq

/-- The two files of a receiver. Its destination and its sidecar are different paths. -/
structure Files where
  /-- Content of the destination file. -/
  dst : Option (List UInt8)
  /-- Content of the resume sidecar. -/
  sidecar : Option (List UInt8)
deriving DecidableEq

/-- The transfer that an accepted offer started. Its open destination file is `Files.dst`. -/
structure Active where
  /-- Progress of the transfer. -/
  transfer : ResumableTransfer
  /-- Fragment hashes of the offer. -/
  fragHashes : List ChunkHash
  /-- Whole-file hash of the offer. -/
  wholeHash : ChunkHash
  /-- Size of the offer. -/
  totalBytes : UInt64
deriving DecidableEq

/-- A receiver on a pair of paths. -/
structure FileReceiver where
  /-- The transfer in progress, if any. -/
  state : Option Active
deriving DecidableEq

/-- `FileReceiver::new`. -/
def FileReceiver.new : FileReceiver := ⟨none⟩

/-- What a call of `apply` returns and leaves behind. -/
structure Applied where
  /-- The result. -/
  result : Except XferError Progress
  /-- The receiver afterwards. -/
  rx : FileReceiver
  /-- The files afterwards. -/
  files : Files

/-- The manifest of an offer. -/
def Offer.manifest (o : Offer) : TransferManifest :=
  ⟨o.fragHashes, o.totalBytes.toNat, o.totalBytes.toNat_lt⟩

/-- `apply` on an offer: open the sidecar, then create and size the destination. `set_len` refuses
sizes beyond `i64::MAX`; the sidecar has been opened by then, and the receiver keeps the transfer
it had. -/
def FileReceiver.applyOffer (rx : FileReceiver) (fs : Files) (o : Offer) : Applied :=
  let (transfer, _, sidecar) := ResumableTransfer.openAt fs.sidecar o.manifest
  let dst := fs.dst.getD []
  if 2 ^ 63 ≤ o.totalBytes.toNat then
    ⟨.error (.io .invalidInput), rx, ⟨some dst, some sidecar⟩⟩
  else
    ⟨.ok (.started transfer.remaining.length),
      ⟨some ⟨transfer, o.fragHashes, o.wholeHash, o.totalBytes⟩⟩,
      ⟨some (setLen dst o.totalBytes.toNat), some sidecar⟩⟩

section

variable (hash : List UInt8 → ChunkHash)

/-- `apply` on a fragment: skip it when it is already held, check its hash, write it at its offset,
and record it. -/
def FileReceiver.applyFragment (rx : FileReceiver) (fs : Files) (index : UInt32)
    (data : List UInt8) : Applied :=
  match rx.state with
  | none => ⟨.error .noOffer, rx, fs⟩
  | some st =>
    let idx := index.toNat
    if st.fragHashes.length ≤ idx then ⟨.error .badIndex, rx, fs⟩
    else if idx ∉ st.transfer.remaining then ⟨.ok .duplicate, rx, fs⟩
    else if some (hash data) ≠ st.fragHashes[idx]? then
      ⟨.error (.hashMismatch index), rx, fs⟩
    else
      let dst := writeAt (fs.dst.getD []) (idx * fragmentLen) data
      let (transfer, sidecar) := st.transfer.markDelivered (fs.sidecar.getD []) idx
      ⟨.ok (.fragment transfer.deliveredCount st.fragHashes.length),
        ⟨some { st with transfer := transfer }⟩, ⟨some dst, some sidecar⟩⟩

/-- `apply` on a completion: when every fragment is delivered, hash the whole destination, and on
success remove the sidecar. -/
def FileReceiver.applyComplete (rx : FileReceiver) (fs : Files) : Applied :=
  match rx.state with
  | none => ⟨.error .noOffer, rx, fs⟩
  | some st =>
    if !st.transfer.isComplete then ⟨.ok (.incomplete st.transfer.remaining.length), rx, fs⟩
    else
      let whole := fs.dst.getD []
      if hash whole ≠ st.wholeHash then ⟨.error .wholeHashMismatch, rx, fs⟩
      else
        match st.transfer.finish fs.sidecar with
        | (.error e, sidecar) => ⟨.error (.io e), ⟨none⟩, { fs with sidecar := sidecar }⟩
        | (.ok (), sidecar) => ⟨.ok .complete, ⟨none⟩, { fs with sidecar := sidecar }⟩

/-- `apply`: one received frame. -/
def FileReceiver.apply (rx : FileReceiver) (fs : Files) : XferFrame → Applied
  | .offer o => rx.applyOffer fs o
  | .fragment index data => rx.applyFragment hash fs index data
  | .complete => rx.applyComplete hash fs

/-- The offer that `send_file` makes for a file. -/
def offerOf (name data : List UInt8) : Offer :=
  ⟨name, UInt64.ofNat data.length, (chunks fragmentLen data).map hash, hash data⟩

/-- The frames that `send_file` emits for a file, in order. -/
def sendFile (name data : List UInt8) : List XferFrame :=
  .offer (offerOf hash name data) ::
    ((chunks fragmentLen data).mapIdx fun index frag => .fragment (UInt32.ofNat index) frag) ++
    [.complete]

/-! ## Integrity -/

/-- The errors by which the protocol rejects a frame, as opposed to a failed I/O call. -/
def XferError.Rejects : XferError → Prop
  | .io _ => False
  | _ => True

/-- A receiver and its files, with the offer in force: the last accepted one, until it completes
or the receiver is restarted. -/
structure Sys where
  /-- The running receiver. -/
  rx : FileReceiver
  /-- Its files. -/
  files : Files
  /-- The offer in force. -/
  inForce : Option Offer

/-- What can happen: a frame arrives, or the receiver is restarted on the same paths, with
whatever its death left in the files. -/
inductive Event
  | frame (f : XferFrame)
  | restart (left : Files)

/-- The offer in force after a frame. -/
def nextOffer (inForce : Option Offer) : XferFrame → Except XferError Progress → Option Offer
  | .offer o, .ok _ => some o
  | .complete, .ok .complete => none
  | _, _ => inForce

/-- One event. -/
def Sys.step (s : Sys) : Event → Sys
  | .frame f =>
    let r := s.rx.apply hash s.files f
    ⟨r.rx, r.files, nextOffer s.inForce f r.result⟩
  | .restart left => ⟨.new, left, none⟩

/-- A fresh receiver on given files. -/
def Sys.start (fs : Files) : Sys := ⟨.new, fs, none⟩

/-- The invariant of every run: an active transfer carries the hash of the offer in force, and its
destination exists. -/
def Sys.Inv (s : Sys) : Prop :=
  ∀ st ∈ s.rx.state, (∃ o, s.inForce = some o ∧ st.wholeHash = o.wholeHash) ∧ s.files.dst.isSome

variable {hash}

/-- What a frame can do to a receiver and its files. -/
inductive Outcome (hash : List UInt8 → ChunkHash) (rx : FileReceiver) (fs : Files) :
    XferFrame → Applied → Prop
  /-- Nothing changes, and no completion is reported. -/
  | kept {f : XferFrame} {result : Except XferError Progress} (hf : ∀ o, f ≠ .offer o)
    (hresult : result ≠ .ok .complete) : Outcome hash rx fs f ⟨result, rx, fs⟩
  /-- `set_len` refuses the size of an offer. -/
  | refused {o : Offer} {sidecar : Option (List UInt8)} : Outcome hash rx fs (.offer o)
    ⟨.error (.io .invalidInput), rx, ⟨some (fs.dst.getD []), sidecar⟩⟩
  /-- An offer starts a transfer. -/
  | started {o : Offer} {st : Active} {n : ℕ} {dst : List UInt8} {sidecar : Option (List UInt8)}
    (hwhole : st.wholeHash = o.wholeHash) : Outcome hash rx fs (.offer o)
      ⟨.ok (.started n), ⟨some st⟩, ⟨some dst, sidecar⟩⟩
  /-- A fragment is written and recorded. -/
  | written {index : UInt32} {data : List UInt8} {st : Active} {transfer : ResumableTransfer}
    {n m : ℕ} {dst : List UInt8} {sidecar : Option (List UInt8)} (hst : rx.state = some st) :
    Outcome hash rx fs (.fragment index data)
      ⟨.ok (.fragment n m), ⟨some { st with transfer := transfer }⟩, ⟨some dst, sidecar⟩⟩
  /-- The destination has the hash of the transfer, which ends. -/
  | finished {st : Active} {result : Except XferError Progress} {sidecar : Option (List UInt8)}
    (hst : rx.state = some st) (hwhole : hash (fs.dst.getD []) = st.wholeHash)
    (hresult : result = .ok .complete ∨ ∃ e, result = .error (.io e)) :
    Outcome hash rx fs .complete ⟨result, ⟨none⟩, { fs with sidecar := sidecar }⟩

/-- Every frame has one of these outcomes. -/
theorem apply_outcome (hash : List UInt8 → ChunkHash) (rx : FileReceiver) (fs : Files)
    (f : XferFrame) :
    Outcome hash rx fs f (rx.apply hash fs f) := by
  -- One case for each kind of frame, split along the checks of `apply`.
  cases f with
  | offer o =>
    simp only [FileReceiver.apply, FileReceiver.applyOffer]
    split
    · exact .refused
    · exact .started rfl
  | fragment index data =>
    have hkept : ∀ {result}, result ≠ .ok .complete →
        Outcome hash rx fs (.fragment index data) ⟨result, rx, fs⟩ := .kept (by simp)
    simp only [FileReceiver.apply, FileReceiver.applyFragment]
    split
    · exact hkept (by simp)
    · next st hst =>
      split_ifs
      · exact hkept (by simp)
      · exact hkept (by simp)
      · exact .written hst
      · exact hkept (by simp)
  | complete =>
    have hkept : ∀ {result}, result ≠ .ok .complete →
        Outcome hash rx fs .complete ⟨result, rx, fs⟩ := .kept (by simp)
    simp only [FileReceiver.apply, FileReceiver.applyComplete]
    split
    · exact hkept (by simp)
    · next st hst =>
      split_ifs with hopen hwhole
      · exact hkept (by simp)
      · exact hkept (by simp)
      · split
        · exact .finished hst (not_not.mp hwhole) (.inr ⟨_, rfl⟩)
        · exact .finished hst (not_not.mp hwhole) (.inl rfl)

/-- A frame that changes nothing leaves the offer in force. -/
theorem nextOffer_of_kept {inForce : Option Offer} {f : XferFrame}
    {result : Except XferError Progress} (hf : ∀ o, f ≠ .offer o)
    (hresult : result ≠ .ok .complete) : nextOffer inForce f result = inForce := by
  unfold nextOffer
  split
  · next o _ => exact absurd rfl (hf o)
  · exact absurd rfl hresult
  · rfl

/-- A rejected frame leaves the receiver and both files as they were. -/
theorem apply_rejects {rx : FileReceiver} {fs : Files} {f : XferFrame} {e : XferError}
    (h : (rx.apply hash fs f).result = .error e) (he : e.Rejects) :
    (rx.apply hash fs f).rx = rx ∧ (rx.apply hash fs f).files = fs := by
  have hout := apply_outcome hash rx fs f
  generalize rx.apply hash fs f = a at hout h ⊢
  cases hout with
  | kept => exact ⟨rfl, rfl⟩
  | refused =>
    obtain rfl := Except.error.inj h
    exact he.elim
  | started => simp at h
  | written => simp at h
  | finished _ _ hresult =>
    -- A failed removal of the sidecar is an I/O error.
    rcases hresult with rfl | ⟨_, rfl⟩
    · simp at h
    · obtain rfl := Except.error.inj h
      exact he.elim

/-- A reported completion was of an active transfer whose destination has the transfer's hash, and
leaves the destination as it is. -/
theorem apply_complete {rx : FileReceiver} {fs : Files} {f : XferFrame}
    (h : (rx.apply hash fs f).result = .ok .complete) :
    ∃ st, rx.state = some st ∧ hash (fs.dst.getD []) = st.wholeHash ∧
      (rx.apply hash fs f).files.dst = fs.dst := by
  have hout := apply_outcome hash rx fs f
  generalize rx.apply hash fs f = a at hout h ⊢
  cases hout with
  | kept _ hresult => exact absurd h hresult
  | refused => simp at h
  | started => simp at h
  | written => simp at h
  | finished hst hwhole => exact ⟨_, hst, hwhole, rfl⟩

/-- Every event keeps the invariant. -/
theorem Sys.Inv.step (s : Sys) (e : Event) (h : s.Inv) : (s.step hash e).Inv := by
  cases e with
  -- A restarted receiver has no transfer, so nothing is asked of it.
  | restart left => intro st hst; simp [Sys.step, FileReceiver.new] at hst
  | frame f =>
    unfold Sys.step
    dsimp only
    have hout := apply_outcome hash s.rx s.files f
    generalize s.rx.apply hash s.files f = a at hout ⊢
    intro st hst
    cases hout with
    | kept hf hresult =>
      rw [nextOffer_of_kept hf hresult]
      exact h st hst
    | refused => exact ⟨(h st hst).1, rfl⟩
    -- The offer in force is now this one, and its file has been opened.
    | started hwhole =>
      obtain rfl := Option.some.inj hst
      exact ⟨⟨_, rfl, hwhole⟩, rfl⟩
    | written hst' =>
      obtain rfl := Option.some.inj hst
      exact ⟨(h _ hst').1, rfl⟩
    | finished => simp at hst

/-- Integrity of the receiver, for every run of frames and restarts from any files. When `apply`
reports completion, the destination hashes to the whole-file hash of the offer in force; if
`send_file` made that offer and no other content collides with the file, the destination is the
file. A frame that `apply` rejects leaves the delivered set and both files as they were. -/
theorem receiver_integrity (hash : List UInt8 → ChunkHash) (fs : Files) (es : List Event)
    (f : XferFrame) :
    let s := run (Sys.step hash) (Sys.start fs) es
    let r := s.rx.apply hash s.files f
    (r.result = .ok .complete →
      ∃ o dst, s.inForce = some o ∧ r.files.dst = some dst ∧ hash dst = o.wholeHash ∧
        ∀ name data, o = offerOf hash name data →
          (∀ other, hash other = hash data → other = data) → dst = data) ∧
      ∀ e, r.result = .error e → e.Rejects → r.rx = s.rx ∧ r.files = s.files := by
  intro s r
  have hstart : (Sys.start fs).Inv := by intro st hst; simp [Sys.start, FileReceiver.new] at hst
  -- The state before the frame keeps the offer in force and its file.
  have hinv : s.Inv := run_induction Sys.Inv.step es hstart
  refine ⟨?_, fun e he hrej => apply_rejects he hrej⟩
  intro hc
  obtain ⟨st, hst, hhash, hdst⟩ := apply_complete hc
  -- A complete transfer has a file whose hash is the offered one.
  obtain ⟨⟨o, ho, hwhole⟩, hsome⟩ := hinv st hst
  obtain ⟨dst, hfile⟩ := Option.isSome_iff_exists.mp hsome
  rw [hfile, Option.getD_some] at hhash
  refine ⟨o, dst, ho, by rw [hdst, hfile], hhash.trans hwhole, ?_⟩
  rintro name data rfl hcol
  exact hcol dst (hhash.trans hwhole)

end

/-- A digest that tells the one-byte file `[5]` from every other content. -/
def fiveHash (data : List UInt8) : ChunkHash :=
  if data = [5] then Bytes.fill 32 1 else Bytes.fill 32 0

/-- The transfer of the file `[5]`, with a restart in the middle: completion is reported with the
file in place, and a corrupted fragment before it is rejected. -/
theorem receiver_integrity_five :
    let o := offerOf fiveHash [0x66] [5]
    let es : List Event := [.frame (.offer o), .frame (.fragment 0 [4]), .restart ⟨none, none⟩,
      .frame (.offer o), .frame (.fragment 0 [5])]
    let s := run (Sys.step fiveHash) (Sys.start ⟨none, none⟩) es
    (∃ dst, (s.rx.apply fiveHash s.files .complete).files.dst = some dst ∧ dst = [5]) ∧
      (s.rx.apply fiveHash s.files (.fragment 1 [5])).files = s.files := by
  intro o es s
  -- Only the one file has this hash.
  have hcol : ∀ other, fiveHash other = fiveHash [5] → other = [5] := by
    intro other h
    by_contra hne
    have : Bytes.fill 32 (0 : UInt8) = Bytes.fill 32 1 := by simpa [fiveHash, hne] using h
    exact absurd this (by decide)
  obtain ⟨hok, -⟩ := receiver_integrity fiveHash ⟨none, none⟩ es .complete
  obtain ⟨o', dst, ho, hdst, -, heq⟩ := hok (by decide +kernel)
  have ho' : o' = o := by
    have : s.inForce = some o := by decide +kernel
    exact Option.some.inj (ho.symm.trans this)
  refine ⟨⟨dst, hdst, heq [0x66] [5] ho' hcol⟩, ?_⟩
  obtain ⟨-, hrej⟩ := receiver_integrity fiveHash ⟨none, none⟩ es (.fragment 1 [5])
  exact (hrej .badIndex (by decide +kernel) trivial).2

/-! ## Recovery -/

section

variable (hash : List UInt8 → ChunkHash)

/-- Apply frames in order. The result is that of the last frame; `start` stands for that of none. -/
def FileReceiver.feed (start : Applied) (frames : List XferFrame) : Applied :=
  frames.foldl (fun a f => a.rx.apply hash a.files f) start

/-- Feeding a fresh receiver on `fs` the complete frame sequence of a file ends in a reported
completion with the file at the destination. -/
def Recovers (name data : List UInt8) (fs : Files) : Prop :=
  let a := FileReceiver.feed hash ⟨.ok .duplicate, .new, fs⟩ (sendFile hash name data)
  a.result = .ok .complete ∧ a.files.dst = some data

/-- The fragments that the sidecar records for a file. -/
def recorded (name data : List UInt8) (fs : Files) : Finset ℕ :=
  (ResumableTransfer.openAt fs.sidecar (offerOf hash name data).manifest).1.delivered

/-- The destination as an accepted offer of `data` sizes it. -/
def sized (data : List UInt8) (fs : Files) : List UInt8 := setLen (fs.dst.getD []) data.length

/-- The fragment frame at `i`. -/
def fragFrame (data : List UInt8) (i : ℕ) : XferFrame :=
  .fragment (UInt32.ofNat i) (chunk fragmentLen i data)

/-- The receiver after the offer and the first `k` fragments: a transfer of the file's manifest with
the recorded progress and these fragments, and a destination of the file's length. -/
structure Received (name data : List UInt8) (fs : Files) (k : ℕ) (a : Applied) : Prop where
  /-- The transfer has delivered what was recorded and the first `k` fragments. -/
  state : ∃ st, a.rx.state = some st ∧ st.fragHashes = (offerOf hash name data).fragHashes ∧
    st.wholeHash = hash data ∧ st.transfer.manifest = (offerOf hash name data).manifest ∧
    st.transfer.delivered = recorded hash name data fs ∪ Finset.range k
  /-- The sidecar exists. -/
  sidecar : ∃ c, a.files.sidecar = some c
  /-- The destination holds the first `k` fragments, except the recorded ones, which are as they
  were found. -/
  dst : ∃ c, a.files.dst = some c ∧ c.length = data.length ∧
    ∀ j, chunk fragmentLen j c =
      if j < k ∧ j ∉ recorded hash name data fs then chunk fragmentLen j data
      else chunk fragmentLen j (sized data fs)

variable {hash}

/-- The frames of a file, with the fragments by index. -/
theorem sendFile_eq (name data : List UInt8) :
    sendFile hash name data = .offer (offerOf hash name data) ::
      ((List.range (chunks fragmentLen data).length).map (fragFrame data) ++ [.complete]) := by
  have hfrags : ((chunks fragmentLen data).mapIdx fun index frag =>
      XferFrame.fragment (UInt32.ofNat index) frag) =
      (List.range (chunks fragmentLen data).length).map (fragFrame data) := by
    apply List.ext_getElem
    · simp
    · intro i h1 h2
      simp [fragFrame, getElem_chunks]
  rw [sendFile, hfrags, List.cons_append]

/-- The offered size is the file's, since a `Vec` holds at most `i64::MAX` bytes. -/
theorem offerOf_totalBytes (hash : List UInt8 → ChunkHash) (name : List UInt8)
    {data : List UInt8} (hlen : data.length < 2 ^ 63) :
    (offerOf hash name data).totalBytes.toNat = data.length := by
  have : data.length % 2 ^ 64 = data.length := Nat.mod_eq_of_lt (by omega)
  simpa [offerOf, UInt64.toNat_ofNat'] using this

/-- The manifest has one chunk per fragment. -/
theorem offerOf_chunkCount (name data : List UInt8) :
    (offerOf hash name data).manifest.chunkCount = (chunks fragmentLen data).length := by
  simp [Offer.manifest, TransferManifest.chunkCount, offerOf]

/-- The offer of a file starts its transfer. -/
theorem apply_offerOf (hash : List UInt8 → ChunkHash) (name : List UInt8) {data : List UInt8}
    (hlen : data.length < 2 ^ 63) (rx : FileReceiver) (fs : Files) :
    Received hash name data fs 0 (rx.apply hash fs (.offer (offerOf hash name data))) := by
  have htotal := offerOf_totalBytes hash name hlen
  obtain ⟨hm, -⟩ := openAt_spec fs.sidecar (offerOf hash name data).manifest
  have hlt : ¬ 2 ^ 63 ≤ (offerOf hash name data).totalBytes.toNat := by omega
  simp only [FileReceiver.apply, FileReceiver.applyOffer, if_neg hlt]
  refine ⟨⟨_, rfl, rfl, rfl, hm, ?_⟩, ⟨_, rfl⟩, ⟨_, rfl, ?_, ?_⟩⟩
  · simp [recorded]
  · simp [htotal]
  · intro j
    simp [sized, htotal]

/-- The next fragment is skipped when it is recorded, and written otherwise. -/
theorem apply_fragFrame {name data : List UInt8} {fs : Files} {k : ℕ} {a : Applied}
    (hn : (chunks fragmentLen data).length ≤ 2 ^ 32)
    (hk : k < (chunks fragmentLen data).length) (h : Received hash name data fs k a) :
    Received hash name data fs (k + 1) (a.rx.apply hash a.files (fragFrame data k)) := by
  obtain ⟨⟨st, hst, hfrag, hwhole, hman, hdel⟩, ⟨sc, hsc⟩, ⟨c, hc, hclen, hchunk⟩⟩ := h
  have hcount : st.transfer.manifest.chunkCount = (chunks fragmentLen data).length := by
    rw [hman, offerOf_chunkCount]
  have hidx : (UInt32.ofNat k).toNat = k := by
    rw [UInt32.toNat_ofNat']
    exact Nat.mod_eq_of_lt (by omega)
  have hasU32 : asU32 k = k := asU32_of_lt (by omega)
  have hin : ¬ st.fragHashes.length ≤ k := by
    rw [hfrag]
    simpa [offerOf] using hk
  have hget : st.fragHashes[k]? = some (hash (chunk fragmentLen k data)) := by
    rw [hfrag]
    simp [offerOf, List.getElem?_eq_getElem hk, getElem_chunks]
  -- The receiver misses the fragment exactly when the sidecar did not record it.
  have hrem : k ∈ st.transfer.remaining ↔ k ∉ recorded hash name data fs := by
    rw [ResumableTransfer.mem_remaining]
    simp [ResumableTransfer.Appends, hcount, hasU32, hdel, hk, -length_chunks]
  simp only [FileReceiver.apply, fragFrame, FileReceiver.applyFragment, hst, hidx, if_neg hin]
  by_cases hr : k ∈ recorded hash name data fs
  · -- A duplicate: nothing is written, and the fragment counts as delivered already.
    rw [if_pos (by rw [hrem]; exact not_not.mpr hr)]
    refine ⟨⟨st, hst, hfrag, hwhole, hman, ?_⟩, ⟨sc, hsc⟩, ⟨c, hc, hclen, ?_⟩⟩
    · rw [hdel, Finset.range_add_one, Finset.union_insert, Finset.insert_eq_of_mem]
      exact Finset.mem_union_left _ hr
    · intro j
      rw [hchunk j]
      by_cases hj : j = k
      · simp [hj, hr]
      · have : j < k + 1 ↔ j < k := by omega
        simp only [this]
  · rw [if_neg (by rw [hrem]; exact not_not.mpr hr), if_neg (by rw [hget]; simp)]
    have happ : st.transfer.Appends k := ResumableTransfer.mem_remaining.mp (hrem.mpr hr)
    rw [ResumableTransfer.markDelivered_of_appends happ]
    have hstart : k * fragmentLen < data.length := (lt_length_chunks_iff (by decide) _ _).mp hk
    refine ⟨⟨_, rfl, hfrag, hwhole, hman, ?_⟩, ⟨_, rfl⟩, ⟨_, rfl, ?_, ?_⟩⟩
    · simp only [hasU32, hdel]
      rw [Finset.range_add_one, Finset.union_insert]
    · rw [hc, Option.getD_some, length_writeAt, hclen]
      simp [chunk, hclen]
      omega
    · intro j
      rw [hc, Option.getD_some, chunk_writeAt hclen hstart, hchunk j]
      by_cases hj : j = k
      · simp [hj, hr]
      · have : j < k + 1 ↔ j < k := by omega
        simp only [if_neg hj, this]

/-- All fragments in order, up to `k` of them. -/
theorem feed_fragments {name data : List UInt8} {fs : Files} {a : Applied}
    (hn : (chunks fragmentLen data).length ≤ 2 ^ 32) (h : Received hash name data fs 0 a) :
    ∀ k ≤ (chunks fragmentLen data).length, Received hash name data fs k
      (FileReceiver.feed hash a ((List.range k).map (fragFrame data))) := by
  intro k
  induction k with
  | zero => exact fun _ => h
  | succ k ih =>
    intro hk
    rw [List.range_succ, List.map_append, FileReceiver.feed, List.foldl_append]
    exact apply_fragFrame hn hk (ih (by omega))

/-- What a completion does after all fragments. -/
theorem apply_complete_of_received {name data : List UInt8} {fs : Files} {a : Applied}
    (h : Received hash name data fs (chunks fragmentLen data).length a) :
    (a.rx.apply hash a.files .complete).result = .ok .complete ∧
        (a.rx.apply hash a.files .complete).files.dst = some data ↔
      ∀ i ∈ recorded hash name data fs,
        chunk fragmentLen i (sized data fs) = chunk fragmentLen i data := by
  obtain ⟨⟨st, hst, -, hwhole, hman, hdel⟩, ⟨sc, hsc⟩, ⟨c, hc, hclen, hchunk⟩⟩ := h
  obtain ⟨-, hsub⟩ := openAt_spec fs.sidecar (offerOf hash name data).manifest
  rw [offerOf_chunkCount] at hsub
  have hcomplete : st.transfer.isComplete = true := by
    have hall : st.transfer.delivered = Finset.range (chunks fragmentLen data).length := by
      rw [hdel, Finset.union_eq_right]
      exact hsub
    simp [ResumableTransfer.isComplete, hall, hman, offerOf_chunkCount]
  simp only [FileReceiver.apply, FileReceiver.applyComplete, hst, hcomplete, hc, hsc, hwhole,
    ResumableTransfer.finish, Option.getD_some]
  constructor
  · -- The destination is the file, so in particular its recorded fragments are.
    rintro ⟨-, hdata⟩ i hi
    have hcd : c = data := by
      split_ifs at hdata <;> simpa [hc] using hdata
    have := hchunk i
    rw [if_neg (by simp [hi]), hcd] at this
    exact this.symm
  · intro hok
    -- The recorded fragments are right and the others were written.
    have hcd : c = data := by
      refine eq_of_chunk_eq (w := fragmentLen) (by decide) hclen ?_
      intro i hi
      rw [hchunk i]
      split_ifs with hcase
      · rfl
      · apply hok
        by_contra hnot
        exact hcase ⟨hi, hnot⟩
    simp [hcd]

/-- A fragment records at most one more `u32` index, for the same manifest. -/
theorem applyFragment_delivered (hash : List UInt8 → ChunkHash) {rx : FileReceiver} {st : Active}
    (fs : Files) (index : UInt32) (data : List UInt8) (hst : rx.state = some st)
    (hdel : st.transfer.delivered ⊆ Finset.range (2 ^ 32)) :
    ∃ st', (rx.applyFragment hash fs index data).rx.state = some st' ∧
      st'.transfer.manifest = st.transfer.manifest ∧
      st'.transfer.delivered ⊆ Finset.range (2 ^ 32) := by
  simp only [FileReceiver.applyFragment, hst]
  split_ifs with h1 h2 h3
  · exact ⟨st, hst, rfl, hdel⟩
  · exact ⟨st, hst, rfl, hdel⟩
  · rw [ResumableTransfer.markDelivered_of_appends (ResumableTransfer.mem_remaining.mp h2)]
    refine ⟨_, rfl, rfl, Finset.insert_subset ?_ hdel⟩
    rw [Finset.mem_range]
    exact Nat.mod_lt _ (by norm_num)
  · exact ⟨st, hst, rfl, hdel⟩

/-- With more than `2^32` fragments the indices wrap, and the transfer is never complete. -/
theorem not_complete_of_wrap {name data : List UInt8} {fs : Files}
    (hn : 2 ^ 32 < (chunks fragmentLen data).length) {a : Applied}
    (h : Received hash name data fs 0 a) (l : List ℕ) :
    ((FileReceiver.feed hash a (l.map (fragFrame data))).rx.apply hash
      (FileReceiver.feed hash a (l.map (fragFrame data))).files .complete).result ≠
        .ok .complete := by
  have hstate : ∃ st, (FileReceiver.feed hash a (l.map (fragFrame data))).rx.state = some st ∧
      st.transfer.manifest = (offerOf hash name data).manifest ∧
      st.transfer.delivered ⊆ Finset.range (2 ^ 32) := by
    -- No frame records an index beyond `u32`, so the delivered set stays smaller than the manifest.
    induction l using List.reverseRecOn with
    | nil =>
      obtain ⟨st, hst, -, -, hman, hdel⟩ := h.state
      have hnone : recorded hash name data fs = ∅ :=
        openAt_of_count_ge (by rw [offerOf_chunkCount]; omega) _
      exact ⟨st, hst, hman, by simp [hdel, hnone]⟩
    | append_singleton l i ih =>
      obtain ⟨st, hst, hman, hdel⟩ := ih
      rw [List.map_append, FileReceiver.feed, List.foldl_append]
      obtain ⟨st', hst', hman', hdel'⟩ := applyFragment_delivered hash
        (FileReceiver.feed hash a (l.map (fragFrame data))).files (UInt32.ofNat i)
        (chunk fragmentLen i data) hst hdel
      exact ⟨st', hst', hman'.trans hman, hdel'⟩
  obtain ⟨st, hst, hman, hdel⟩ := hstate
  have hcard : st.transfer.delivered.card ≤ 2 ^ 32 := by
    simpa using Finset.card_le_card hdel
  have hne : st.transfer.isComplete = false := by
    simp only [ResumableTransfer.isComplete, hman, offerOf_chunkCount, beq_eq_false_iff_ne]
    omega
  simp [FileReceiver.apply, FileReceiver.applyComplete, hst, hne]

/-- A fresh receiver that is fed the complete frame sequence of a file, from any state of its
files, ends with the file exactly when the fragment indices fit in a `u32` and every fragment that
the sidecar records is in the destination as the file has it. -/
theorem recovers_iff (hash : List UInt8 → ChunkHash) (name data : List UInt8)
    (hlen : data.length < 2 ^ 63) (fs : Files) :
    Recovers hash name data fs ↔
      (chunks fragmentLen data).length ≤ 2 ^ 32 ∧
        ∀ i ∈ recorded hash name data fs,
          chunk fragmentLen i (sized data fs) = chunk fragmentLen i data := by
  have h0 := apply_offerOf hash name hlen .new fs
  unfold Recovers
  rw [sendFile_eq, FileReceiver.feed, List.foldl_cons, List.foldl_append]
  dsimp only [List.foldl_cons, List.foldl_nil]
  rcases le_or_gt (chunks fragmentLen data).length (2 ^ 32) with hn | hn
  · have hall := feed_fragments hn h0 _ le_rfl
    rw [and_iff_right hn]
    exact apply_complete_of_received hall
  · have hnever := not_complete_of_wrap hn h0 (List.range (chunks fragmentLen data).length)
    exact ⟨fun h => absurd h.1 hnever, fun h => absurd h.1 (by omega)⟩

end

/-- Whether a file is recovered can be decided. -/
instance (hash : List UInt8 → ChunkHash) (name data : List UInt8) (fs : Files) :
    Decidable (Recovers hash name data fs) :=
  inferInstanceAs (Decidable (_ ∧ _))

/-- A digest that is the first 32 bytes of the content. -/
def prefixHash (data : List UInt8) : ChunkHash := Bytes.ofList 32 data

/-- The sidecar of an interrupted transfer of the one-byte file `[1]`, with its only fragment
recorded. -/
def recordedSidecar : List UInt8 :=
  headerBytes (offerOf prefixHash [0x66] [1]).manifest ++ leBytes 4 0

/-- A restart with the recorded fragment in the destination recovers the file. -/
theorem recovers_one_byte :
    [(1 : UInt8)].length < 2 ^ 63 ∧
      Recovers prefixHash [0x66] [1] ⟨some [1], some recordedSidecar⟩ :=
  ⟨by decide, (recovers_iff prefixHash [0x66] [1] (by decide) _).mpr
    ⟨by decide, by decide +kernel⟩⟩

/-- A sidecar that records a fragment whose bytes are not in the destination, here because the
destination is missing, blocks the transfer: the fragment is skipped as a duplicate, and the
completion fails its hash check and leaves the same sidecar for the next attempt. -/
theorem stale_sidecar_blocks_recovery :
    let fs : Files := ⟨none, some recordedSidecar⟩
    let a := FileReceiver.feed prefixHash ⟨.ok .duplicate, .new, fs⟩
      (sendFile prefixHash [0x66] [1])
    ¬ Recovers prefixHash [0x66] [1] fs ∧ a.result = .error .wholeHashMismatch ∧
      a.files.sidecar = fs.sidecar ∧ ¬ Recovers prefixHash [0x66] [1] a.files := by
  decide +kernel

end LowBand.Lowbandd
