import LowBand.Lib.Reader
import LowBand.Lib.Run
import LowBand.Lowbandd.FileTransfer
import LowBand.Signaling.Room

/-!
# The inboxes of a mesh

`spawn_mesh_worker` of `main.rs` gives every peer of a mesh a receiver on two files of the data
directory, named after the peer's id: `sanitize` keeps ASCII letters, digits and dashes and replaces
every other character by an underscore. The receivers of all peers run on one directory, a frame a
step.

A receiver touches its own two files only (`Inboxes.view_others`), so peers whose names differ do
not see each other, by the general rule for parties that share a machine. Names differ exactly when
the sanitised ids do (`pathsDiffer_iff`); where they agree, one peer's progress shows up in the
other's transfer (`not_unaffected`). So the transfers of a mesh are isolated exactly if no two ids
have the same sanitised form (`inboxes_isolated_iff`), which distinct ids can have
(`not_isolated_space`).
-/

namespace LowBand.Lowbandd

open Lib Xfer Signaling

/-! ## Names -/

/-- `sanitize`. -/
def sanitize (id : String) : String :=
  String.ofList (id.toList.map fun c => if c.isAlphanum || c == '-' then c else '_')

/-- The destination file of a peer, in the data directory. -/
def inboxPath (id : String) : String := "inbox-" ++ sanitize id ++ ".bin"

/-- The resume sidecar of a peer, in the data directory. -/
def resumePath (id : String) : String := "inbox-" ++ sanitize id ++ ".resume"

/-- Destinations are the same when the sanitised ids are. -/
theorem inboxPath_inj {a b : String} : inboxPath a = inboxPath b ↔ sanitize a = sanitize b := by
  simp [inboxPath, ← String.toList_inj]

/-- Sidecars are the same when the sanitised ids are. -/
theorem resumePath_inj {a b : String} : resumePath a = resumePath b ↔ sanitize a = sanitize b := by
  simp [resumePath, ← String.toList_inj]

/-- No destination is a sidecar. -/
theorem inboxPath_ne_resumePath (a b : String) : inboxPath a ≠ resumePath b := by
  intro h
  have hlast := congrArg (fun s : String => s.toList.reverse.head?) h
  simp [inboxPath, resumePath] at hlast

/-! ## The receivers of a mesh -/

/-- The data directory and the receivers of the peers, by the peers' ids. Contents are by name, so
the model does not follow a handle to a shared sidecar that another peer's completion removed. -/
structure Inboxes where
  /-- The contents of the files of the data directory. -/
  disk : String → Option (List UInt8)
  /-- The receiver of each peer. -/
  rx : String → FileReceiver

/-- The two files of a peer. -/
def Inboxes.files (s : Inboxes) (id : String) : Files :=
  ⟨s.disk (inboxPath id), s.disk (resumePath id)⟩

/-- The workers have started on a data directory. -/
def Inboxes.start (disk : String → Option (List UInt8)) : Inboxes := ⟨disk, fun _ => .new⟩

/-- A frame from a peer. -/
structure Arrival where
  /-- The peer. -/
  peer : String
  /-- The frame. -/
  frame : XferFrame

section

variable (hash : List UInt8 → ChunkHash)

/-- A peer's receiver applies a frame on the peer's two files. -/
def Inboxes.apply : Machine Inboxes Arrival (String × Except XferError Progress) := fun s e =>
  let r := (s.rx e.peer).apply hash (s.files e.peer) e.frame
  ([(e.peer, r.result)],
    { disk := Function.update (Function.update s.disk (inboxPath e.peer) r.files.dst)
        (resumePath e.peer) r.files.sidecar
      rx := Function.update s.rx e.peer r.rx })

/-- What the frames of `es` report for the peer `id`, and what its destination holds afterwards. -/
def transferOf (disk : String → Option (List UInt8)) (es : List Arrival) (id : String) :
    List (String × Except XferError Progress) × Option (List UInt8) :=
  (((Inboxes.apply hash).emitted (.start disk) es).filter fun r => r.1 = id,
    ((Inboxes.apply hash).finish (.start disk) es).disk (inboxPath id))

/-- The frames of `es` that a peer sent. -/
def sentBy (id : String) (es : List Arrival) : List Arrival := es.filter fun e => e.peer = id

/-- The transfer of every peer is the same as when its frames are processed alone. -/
def Unaffected (ids : List String) : Prop :=
  ∀ (disk : String → Option (List UInt8)) (es : List Arrival), (∀ e ∈ es, e.peer ∈ ids) →
    ∀ id ∈ ids, transferOf hash disk es id = transferOf hash disk (sentBy id es) id

end

/-- The two files of a peer are not those of another one. -/
def PathsDiffer (ids : List String) : Prop :=
  ∀ a ∈ ids, ∀ b ∈ ids, a ≠ b → inboxPath a ≠ inboxPath b ∧ inboxPath a ≠ resumePath b ∧
    resumePath a ≠ inboxPath b ∧ resumePath a ≠ resumePath b

/-- No two ids have the same sanitised form. -/
def SanitizedDiffer (ids : List String) : Prop :=
  ∀ a ∈ ids, ∀ b ∈ ids, a ≠ b → sanitize a ≠ sanitize b

/-- The peers have files of their own exactly if their sanitised ids differ. -/
theorem pathsDiffer_iff (ids : List String) : PathsDiffer ids ↔ SanitizedDiffer ids := by
  constructor
  · intro h a ha b hb hne heq
    exact (h a ha b hb hne).1 (inboxPath_inj.mpr heq)
  · intro h a ha b hb hne
    have hsan := h a ha b hb hne
    exact ⟨mt inboxPath_inj.mp hsan, inboxPath_ne_resumePath a b,
      (inboxPath_ne_resumePath b a).symm, mt resumePath_inj.mp hsan⟩

variable {hash : List UInt8 → ChunkHash} {ids : List String}

/-- What a peer's receiver works with. -/
def Inboxes.view (id : String) (s : Inboxes) : FileReceiver × Files := (s.rx id, s.files id)

/-- The frame of a peer with other files changes nothing for a peer. -/
theorem Inboxes.view_others {a : String} {e : Arrival} (s : Inboxes) (hne : e.peer ≠ a)
    (hpaths : sanitize e.peer ≠ sanitize a) : (Inboxes.apply hash s e).2.view a = s.view a := by
  have hinbox : inboxPath a ≠ inboxPath e.peer := fun h => hpaths (inboxPath_inj.mp h).symm
  have hresume : resumePath a ≠ resumePath e.peer := fun h => hpaths (resumePath_inj.mp h).symm
  have hcross := inboxPath_ne_resumePath a e.peer
  have hcross' := (inboxPath_ne_resumePath e.peer a).symm
  simp [Inboxes.view, Inboxes.files, Inboxes.apply, hne.symm, hinbox, hresume, hcross, hcross']

/-- A peer's own frame is applied to what its receiver works with. -/
theorem Inboxes.view_own (s : Inboxes) (e : Arrival) :
    (Inboxes.apply hash s e).2.view e.peer =
      (((s.view e.peer).1.apply hash (s.view e.peer).2 e.frame).rx,
        ((s.view e.peer).1.apply hash (s.view e.peer).2 e.frame).files) := by
  have hcross := inboxPath_ne_resumePath e.peer e.peer
  simp [Inboxes.view, Inboxes.files, Inboxes.apply, hcross]

/-- Peers with files of their own do not see each other. -/
theorem unaffected_of_sanitizedDiffer (h : SanitizedDiffer ids) : Unaffected hash ids := by
  intro disk es hes id hid
  -- A frame of another peer goes to another file.
  have hothers : ∀ e ∈ es, decide (e.peer = id) = false → ∀ s,
      (Inboxes.apply hash s e).2.view id = s.view id ∧
        ((Inboxes.apply hash s e).1.filter fun r => r.1 = id) = [] := by
    intro e he hne s
    have hne : e.peer ≠ id := of_decide_eq_false hne
    refine ⟨Inboxes.view_others s hne (h e.peer (hes e he) id hid hne), ?_⟩
    simp [Inboxes.apply, hne]
  -- A frame of one's own sees only one's own view.
  have hmine : ∀ e ∈ es, decide (e.peer = id) = true → ∀ s t : Inboxes, s.view id = t.view id →
      (Inboxes.apply hash s e).2.view id = (Inboxes.apply hash t e).2.view id ∧
        ((Inboxes.apply hash s e).1.filter fun r => r.1 = id) =
          ((Inboxes.apply hash t e).1.filter fun r => r.1 = id) := by
    intro e _ heq s t hst
    obtain rfl : e.peer = id := of_decide_eq_true heq
    refine ⟨by rw [Inboxes.view_own, Inboxes.view_own, hst], ?_⟩
    obtain ⟨hrx, hfiles⟩ := Prod.mk.inj hst
    simp only [Inboxes.apply, hrx, hfiles]
  obtain ⟨hview, hout⟩ := Machine.view_alone (Inboxes.view id) _ _ hothers hmine
    (rfl : (Inboxes.start disk).view id = (Inboxes.start disk).view id)
  exact Prod.ext hout (congrArg (fun v => v.2.dst) hview)

/-- An offer of a file of `n` bytes without fragments. -/
def bareOffer (n : UInt64) : XferFrame := .offer ⟨[], n, [], Bytes.fill 32 0⟩

/-- Of two peers with the same files, the second one's offer resizes the destination of the first
one. -/
theorem not_unaffected {a b : String} (ha : a ∈ ids) (hb : b ∈ ids) (hne : a ≠ b)
    (hsan : sanitize a = sanitize b) : ¬ Unaffected hash ids := by
  intro h
  have hinbox : inboxPath a = inboxPath b := inboxPath_inj.mpr hsan
  have hresume : resumePath a = resumePath b := resumePath_inj.mpr hsan
  have hcross := inboxPath_ne_resumePath b b
  have hlen : ∀ fs : Files, ∀ n : UInt64, n < 4 → ∀ rx : FileReceiver,
      (rx.apply hash fs (bareOffer n)).files.dst.map List.length = some n.toNat := by
    intro fs n hn rx
    have hsmall : n.toNat < 4 := UInt64.lt_iff_toNat_lt.mp hn
    have hlt : ¬ 2 ^ 63 ≤ n.toNat := by omega
    simp only [bareOffer, FileReceiver.apply, FileReceiver.applyOffer, if_neg hlt, Option.map_some,
      length_setLen]
  have hsame := congrArg (fun t => t.2.map List.length) (h (fun _ => none)
    [⟨a, bareOffer 1⟩, ⟨b, bareOffer 2⟩] (by simp [ha, hb]) a ha)
  simp [transferOf, sentBy, Machine.finish, Inboxes.apply, Inboxes.start, Inboxes.files, hinbox,
    hresume, hcross, hne.symm, hlen] at hsame

/-! ## Isolation -/

/-- The transfers of a mesh are isolated: every peer has files of its own, and its progress and its
destination do not depend on the frames of the others. -/
def InboxesIsolated (hash : List UInt8 → ChunkHash) (ids : List String) : Prop :=
  PathsDiffer ids ∧ Unaffected hash ids

/-- The transfers of a mesh are isolated exactly if no two ids have the same sanitised form. -/
theorem inboxes_isolated_iff (hash : List UInt8 → ChunkHash) (ids : List String) :
    InboxesIsolated hash ids ↔ SanitizedDiffer ids := by
  constructor
  · rintro ⟨hpaths, -⟩
    exact (pathsDiffer_iff ids).mp hpaths
  · intro h
    exact ⟨(pathsDiffer_iff ids).mpr h, unaffected_of_sanitizedDiffer h⟩

/-- Some room accepts the id. -/
def AcceptedId (id : String) : Prop :=
  ∃ (st : RoomStore) (now : ℤ) (code pubkey : List UInt8),
    (st.postRoomJoin now code (strBytes id) pubkey).1 = .ok

/-- A room accepts the ids `a b` and `a_b`, and they share their files and disturb each other. -/
theorem not_isolated_space :
    ¬ ∀ (hash : List UInt8 → ChunkHash) (ids : List String), ids.Nodup →
      (∀ id ∈ ids, AcceptedId id) → InboxesIsolated hash ids := by
  intro h
  have haccepted : ∀ id ∈ ["a b", "a_b"], AcceptedId id := by
    intro id hid
    refine ⟨(RoomStore.empty.postRoom 0).2, 0, (RoomStore.empty.postRoom 0).1, [], ?_⟩
    revert id
    decide +kernel
  have hisolated := h (fun _ => Bytes.fill 32 0) _ (by decide) haccepted
  exact not_unaffected (List.mem_cons_self) (List.mem_cons_of_mem _ List.mem_cons_self)
    (by decide) (by decide +kernel) hisolated.2

end LowBand.Lowbandd
