import LowBand.Crypto.UdpSession
import LowBand.Lib.Ascii
import Mathlib.Data.List.Sort

/-!
# Mesh establishment

`establish_mesh` of `mesh.rs` turns a room roster into one secure session a peer. Strings are their
UTF-8 bytes. What the outside world contributes to a call (the answers of the signaling server, the
first datagram on each socket, the ephemeral secrets) is a `MeshEnv`.

`establishMesh_eq_ok` takes a returned mesh apart into its pairs. Where this node connects, the
session's key is the one of the roster entry, pinned before the handshake. Where it accepts, the key
is read from whatever message reached the socket first, and nothing compares it with the roster:
`mesh_bound_iff` says that the mesh is bound to the roster exactly if the peers won that race, and
`other_member_taken_for_peer` is a room in which one did not.
-/

namespace LowBand.Lowbandd

open Lib Crypto

/-! ## The roster -/

/-- A member of a room. -/
structure RoomParticipant where
  /-- The participant id. -/
  id : List UInt8
  /-- The static public key in hexadecimal. -/
  pubkey : List UInt8
  /-- The candidates it published. -/
  candidates : List (List UInt8)
deriving DecidableEq

/-- The roster of a room. -/
structure RoomRoster where
  /-- The members. -/
  participants : List RoomParticipant
deriving DecidableEq

/-- Every participant except `me`. -/
def RoomRoster.peers (r : RoomRoster) (me : List UInt8) : List RoomParticipant :=
  r.participants.filter fun p => p.id ≠ me

/-- A public key as lower-case hexadecimal digits. -/
def encodeKey (key : Bytes 32) : List UInt8 := hexEncode key.val

/-- The public key of 64 hexadecimal digits. -/
def decodeKey (hex : List UInt8) : Option (Bytes 32) :=
  if hex.length ≠ 64 then none else (hexDecode hex).bind (Bytes.tryFrom 32)

/-- A published key reads back as the key. -/
theorem decodeKey_encodeKey (key : Bytes 32) : decodeKey (encodeKey key) = some key := by
  simp [decodeKey, encodeKey, hexDecode_hexEncode, Bytes.tryFrom]

/-! ## The world outside -/

/-- `ClientError`. -/
inductive ClientError where
  | io
  | status (code : ℕ)
  | malformed (what : String)
deriving DecidableEq

/-- `EstablishError`. -/
inductive EstablishError where
  | signaling (e : ClientError)
  | session (e : SessionError)
  | io
  | timeout (what : String)
deriving DecidableEq

/-- What the outside world does at the socket of one pair. -/
structure SocketEnv where
  /-- The failure of binding the socket or of publishing its address, if any. -/
  publish : Except EstablishError Unit
  /-- The rosters polled for the peer's address until the deadline, `none` for a failed request. -/
  polls : List (Option RoomRoster)
  /-- The first datagram that reaches the socket, `none` when a socket call fails. -/
  first : Option Datagram
  /-- The ephemeral secret drawn for the handshake. -/
  eSecret : Bytes 32

/-- What the outside world does during one call. -/
structure MeshEnv where
  /-- The answer to joining the room. -/
  join : Except ClientError Unit
  /-- The rosters polled until the deadline, `none` for a failed request. -/
  polls : List (Option RoomRoster)
  /-- The sockets, in the order of the sorted peers. -/
  socket : ℕ → SocketEnv
  /-- `str::parse::<SocketAddr>`. -/
  parseAddr : List UInt8 → Option SocketAddr

/-- `wait_for`: the first value that a poll yields before the deadline. -/
def waitFor {α β : Type} (what : String) (polls : List α) (f : α → Option β) :
    Except EstablishError β :=
  match polls.findSome? f with
  | some v => .ok v
  | none => .error (.timeout what)

/-! ## Establishing the mesh -/

/-- A connected peer. -/
structure MeshPeer where
  /-- Its participant id. -/
  id : List UInt8
  /-- The session to it. -/
  session : SecureSession
deriving DecidableEq

/-- An established mesh. -/
structure MeshSession where
  /-- This node's participant id. -/
  me : List UInt8
  /-- The peers. -/
  peers : List MeshPeer
deriving DecidableEq

/-- The roster that the first phase waits for: the first one with the whole party. -/
def fullRoster (groupSize : ℕ) : Option RoomRoster → Option RoomRoster
  | none => none
  | some r => if groupSize ≤ r.participants.length then some r else none

/-- The tag `mesh:<me>:udp:` of the addresses published for this node. -/
def meshTag (me : List UInt8) : List UInt8 :=
  [109, 101, 115, 104, 58] ++ me ++ [58, 117, 100, 112, 58]

/-- The address that the peer `pid` published for this node, in a polled roster. -/
def meshCandidate (parseAddr : List UInt8 → Option SocketAddr) (me pid : List UInt8) :
    Option RoomRoster → Option SocketAddr
  | none => none
  | some r => do
    let pp ← r.participants.find? fun x => x.id = pid
    let tagged := pp.candidates.filterMap fun c =>
      if (meshTag me).isPrefixOf c then some (c.drop (meshTag me).length) else none
    tagged.findSome? parseAddr

variable {S : Suite}

/-- The peers of a roster in the order of their ids. -/
def sortedPeers (r : RoomRoster) (me : List UInt8) : List RoomParticipant :=
  (r.peers me).insertionSort fun a b => a.id ≤ b.id

/-- The key and the address of a peer, with the number of its socket. -/
def resolvePeer (env : MeshEnv) (me : List UInt8) (x : RoomParticipant × ℕ) :
    Except EstablishError (RoomParticipant × ℕ × SocketAddr × Bytes 32) :=
  match decodeKey x.1.pubkey with
  | none => .error (.timeout "peer static key (malformed)")
  | some peerPub => do
    let addr ← waitFor "peer mesh candidate" (env.socket x.2).polls
      (meshCandidate env.parseAddr me x.1.id)
    return (x.1, x.2, addr, peerPub)

/-- The handshake of one pair: the smaller id connects, the larger one accepts. -/
def handshakePeer (env : MeshEnv) (code me : List UInt8) (staticKey : StaticKeypair S)
    (x : RoomParticipant × ℕ × SocketAddr × Bytes 32) : Except EstablishError MeshPeer :=
  let (p, i, _, peerPub) := x
  let session :=
    if me < p.id then
      SecureSession.connect staticKey peerPub code (env.socket i).eSecret (env.socket i).first
    else
      SecureSession.accept staticKey code (env.socket i).eSecret (env.socket i).first
  match session with
  | .ok session => .ok ⟨p.id, session⟩
  | .error e => .error (.session e)

/-- `establish_mesh`. The handshakes run concurrently in the source, each on its own socket, and
are joined in the order of the peers. -/
def establishMesh (env : MeshEnv) (code me : List UInt8) (staticKey : StaticKeypair S)
    (groupSize : ℕ) : Except EstablishError MeshSession := do
  match env.join with
  | .error e => .error (.signaling e)
  | .ok () =>
    let roster ← waitFor "full room roster" env.polls (fullRoster groupSize)
    let peers := (sortedPeers roster me).zipIdx
    let _ ← peers.mapM fun x => (env.socket x.2).publish
    let pairs ← peers.mapM (resolvePeer env me)
    let out ← pairs.mapM (handshakePeer env code me staticKey)
    return ⟨me, out.insertionSort fun a b => a.id ≤ b.id⟩

/-! ## Whose key a peer has -/

/-- The roster lists the key `k` for the participant `x`. -/
def KeyListed (r : RoomRoster) (x : List UInt8) (k : Bytes 32) : Prop :=
  ∃ p ∈ r.participants, p.id = x ∧ decodeKey p.pubkey = some k

/-- Whether a key is listed can be decided. -/
instance (r : RoomRoster) (x : List UInt8) (k : Bytes 32) : Decidable (KeyListed r x k) :=
  inferInstanceAs (Decidable (∃ p ∈ r.participants, p.id = x ∧ decodeKey p.pubkey = some k))

/-- Every peer has a session to a key that the roster lists for it. -/
def MeshSession.Bound (m : MeshSession) (r : RoomRoster) : Prop :=
  ∀ q ∈ m.peers, KeyListed r q.id q.session.remoteStaticPubkey

/-- The datagram starts with a message 1 for this node and code that the holder of `k` built. -/
def BuiltBy (staticKey : StaticKeypair S) (code : List UInt8) (k : Bytes 32) (d : Datagram) :
    Prop :=
  ∃ (kp : StaticKeypair S) (e : Bytes 32), kp.publicKeyBytes = k ∧
    d.received msg1Len = (NoiseIkInitiator.new kp staticKey.publicKeyBytes code e).2

/-- The handshake authenticates: a first datagram that `receive_message1` accepts was built by the
holder of the key that it reports. -/
def Authenticated (env : MeshEnv) (code : List UInt8) (staticKey : StaticKeypair S) : Prop :=
  ∀ i d r, (env.socket i).first = some d →
    NoiseIkResponder.receiveMessage1 staticKey code (d.received msg1Len) = .ok r →
      BuiltBy staticKey code r.initSPub d

/-- On the socket of every pair in which this node accepts, the first datagram is from the holder of
a key that the roster lists for the peer. -/
def PeersArriveFirst (env : MeshEnv) (code me : List UInt8) (staticKey : StaticKeypair S)
    (r : RoomRoster) : Prop :=
  ∀ x ∈ (sortedPeers r me).zipIdx, ¬ me < x.1.id →
    ∃ d k, (env.socket x.2).first = some d ∧ KeyListed r x.1.id k ∧
      BuiltBy staticKey code k d

/-- The session that the pair of a peer ended with: connected to the key in its roster entry, or
accepted from the first datagram. -/
def PairedWith (env : MeshEnv) (code me : List UInt8) (staticKey : StaticKeypair S)
    (x : RoomParticipant × ℕ) (q : MeshPeer) : Prop :=
  q.id = x.1.id ∧
    if me < x.1.id then decodeKey x.1.pubkey = some q.session.remoteStaticPubkey
    else ∃ d r, (env.socket x.2).first = some d ∧
      NoiseIkResponder.receiveMessage1 staticKey code (d.received msg1Len) = .ok r ∧
      q.session.remoteStaticPubkey = r.initSPub

variable {env : MeshEnv} {code me : List UInt8} {staticKey : StaticKeypair S} {groupSize : ℕ}
  {m : MeshSession}

/-- The handshake of a pair, after its key and address were resolved. -/
theorem pairedWith_of_handshake {x : RoomParticipant × ℕ}
    {y : RoomParticipant × ℕ × SocketAddr × Bytes 32} {q : MeshPeer}
    (hres : resolvePeer env me x = .ok y) (hshake : handshakePeer env code me staticKey y = .ok q) :
    PairedWith env code me staticKey x q := by
  unfold resolvePeer at hres
  split at hres
  · simp at hres
  · rename_i peerPub hkey
    obtain ⟨addr, -, hy⟩ := bind_eq_ok.mp hres
    obtain rfl := Except.ok.inj hy
    simp only [handshakePeer] at hshake
    split at hshake
    · rename_i session hsession
      obtain rfl := Except.ok.inj hshake
      refine ⟨rfl, ?_⟩
      -- The node with the smaller id connects, the other one accepts.
      split at hsession
      · rename_i hlt
        rw [if_pos hlt, hkey, SecureSession.remoteStaticPubkey_of_connect hsession]
      · rename_i hlt
        rw [if_neg hlt]
        exact SecureSession.remoteStaticPubkey_of_accept hsession
    · simp at hshake

/-- What a returned mesh consists of: a peer for each roster entry, and no other. -/
theorem establishMesh_eq_ok (h : establishMesh env code me staticKey groupSize = .ok m) :
    ∃ r, env.polls.findSome? (fullRoster groupSize) = some r ∧
      (∀ x ∈ (sortedPeers r me).zipIdx, ∃ q ∈ m.peers, PairedWith env code me staticKey x q) ∧
      ∀ q ∈ m.peers, ∃ x ∈ (sortedPeers r me).zipIdx, PairedWith env code me staticKey x q := by
  unfold establishMesh at h
  split at h
  · simp at h
  · obtain ⟨r, hr, h⟩ := bind_eq_ok.mp h
    obtain ⟨_, -, h⟩ := bind_eq_ok.mp h
    obtain ⟨pairs, hpairs, h⟩ := bind_eq_ok.mp h
    obtain ⟨out, hout, h⟩ := bind_eq_ok.mp h
    obtain rfl := Except.ok.inj h
    -- Both loops over the peers keep their order, so each peer has its entry and its session.
    obtain ⟨hres, hres'⟩ := mem_of_mapM_eq_ok hpairs
    obtain ⟨hshake, hshake'⟩ := mem_of_mapM_eq_ok hout
    refine ⟨r, ?_, fun x hx => ?_, fun q hq => ?_⟩
    · unfold waitFor at hr
      split at hr
      · rename_i v hv
        rw [hv, Except.ok.inj hr]
      · simp at hr
    · obtain ⟨y, hy, hxy⟩ := hres x hx
      obtain ⟨q, hq, hyq⟩ := hshake y hy
      exact ⟨q, (List.mem_insertionSort _).mpr hq, pairedWith_of_handshake hxy hyq⟩
    · obtain ⟨y, hy, hyq⟩ := hshake' q ((List.mem_insertionSort _).mp hq)
      obtain ⟨x, hx, hxy⟩ := hres' y hy
      exact ⟨x, hx, pairedWith_of_handshake hxy hyq⟩

/-- In every mesh that `establish_mesh` returns, all peers have sessions to the keys that the roster
lists for them exactly if, at every pair in which this node accepts, the listed key's holder reached
the socket first. -/
theorem mesh_bound_iff (env : MeshEnv) (code me : List UInt8) (staticKey : StaticKeypair S)
    (groupSize : ℕ) (m : MeshSession) (hauth : Authenticated env code staticKey)
    (h : establishMesh env code me staticKey groupSize = .ok m) :
    ∃ r, env.polls.findSome? (fullRoster groupSize) = some r ∧
      (m.Bound r ↔ PeersArriveFirst env code me staticKey r) := by
  obtain ⟨r, hr, hto, hof⟩ := establishMesh_eq_ok h
  refine ⟨r, hr, ?_, ?_⟩
  · intro hbound x hx hlt
    obtain ⟨q, hq, hid, hpair⟩ := hto x hx
    rw [if_neg hlt] at hpair
    -- An accepted session is with whoever wrote the first datagram.
    obtain ⟨d, resp, hd, hok, hkey⟩ := hpair
    refine ⟨d, resp.initSPub, hd, ?_, hauth x.2 d resp hd hok⟩
    rw [← hid, ← hkey]
    exact hbound q hq
  · intro hfirst q hq
    obtain ⟨x, hx, hid, hpair⟩ := hof q hq
    by_cases hlt : me < x.1.id
    · -- the key was pinned to the roster entry before the handshake
      rw [if_pos hlt] at hpair
      have hmem : x.1 ∈ r.participants := by
        have := (List.mem_insertionSort _).mp (List.fst_mem_of_mem_zipIdx hx)
        exact (List.mem_filter.mp this).1
      exact ⟨x.1, hmem, hid.symm, hpair⟩
    · rw [if_neg hlt] at hpair
      obtain ⟨d, resp, hd, hok, hkey⟩ := hpair
      obtain ⟨d', k, hd', hlisted, kp, e, rfl, hmsg⟩ := hfirst x hx hlt
      obtain rfl := Option.some.inj (hd.symm.trans hd')
      rw [hmsg, receiveMessage1_new kp staticKey code e] at hok
      rw [hid, hkey, ← Except.ok.inj hok]
      exact hlisted

/-! ### A room of three -/

/-- A roster entry of a participant with one published address for the node `c`. -/
def sampleParticipant (id secret : UInt8) : RoomParticipant where
  id := [id]
  pubkey := encodeKey (sampleKeypair secret).publicKeyBytes
  candidates := [meshTag [99] ++ [49]]

/-- The roster of `a`, `b` and `c`. -/
def sampleRoster : RoomRoster :=
  ⟨[sampleParticipant 97 3, sampleParticipant 98 5, sampleParticipant 99 7]⟩

/-- A message 1 for `c` and the room code `123`, from the holder of a secret. -/
def sampleMessage (secret : UInt8) : Datagram where
  source := ⟨[127, 0, 0, 1], 9000⟩
  payload := (NoiseIkInitiator.new (sampleKeypair secret) (sampleKeypair 7).publicKeyBytes
    [49, 50, 51] (Bytes.fill 32 11)).2

/-- The call of `c` when the holders of the given secrets reach the sockets of `a` and of `b`
first. -/
def sampleMesh (first : ℕ → UInt8) : MeshEnv where
  join := .ok ()
  polls := [none, some sampleRoster]
  socket i := ⟨.ok (), [some sampleRoster], some (sampleMessage (first i)), Bytes.fill 32 13⟩
  parseAddr _ := some ⟨[127, 0, 0, 1], 9000⟩

/-- A sample message is built by the holder of its secret. -/
theorem sampleMessage_builtBy (secret : UInt8) :
    BuiltBy (sampleKeypair 7) [49, 50, 51] (sampleKeypair secret).publicKeyBytes
      (sampleMessage secret) :=
  ⟨sampleKeypair secret, Bytes.fill 32 11, rfl, List.take_of_length_le (length_new _ _ _ _).le⟩

/-- Every message of `sampleMesh` was built by the holder of the key that it reports. -/
theorem sampleMesh_authenticated (first : ℕ → UInt8) :
    Authenticated (sampleMesh first) [49, 50, 51] (sampleKeypair 7) := by
  intro i d r hd hok
  obtain rfl := Option.some.inj hd
  obtain ⟨kp, e, hkey, hmsg⟩ := sampleMessage_builtBy (first i)
  rw [hmsg, receiveMessage1_new] at hok
  exact ⟨kp, e, by rw [← Except.ok.inj hok], hmsg⟩

/-- When `a` and `b` reach their sockets first, the mesh of `c` is bound to the roster. -/
theorem mesh_bound_honest :
    ∃ m, establishMesh (sampleMesh fun i => if i = 0 then 3 else 5) [49, 50, 51] [99]
        (sampleKeypair 7) 3 = .ok m ∧ m.Bound sampleRoster := by
  have hlen : (fun m => m.peers.length) <$>
      establishMesh (sampleMesh fun i => if i = 0 then 3 else 5) [49, 50, 51] [99]
        (sampleKeypair 7) 3 = .ok 2 := by decide +kernel
  obtain ⟨m, hm, -⟩ := map_eq_ok.mp hlen
  obtain ⟨r, hr, hiff⟩ := mesh_bound_iff _ _ _ _ _ m (sampleMesh_authenticated _) hm
  obtain rfl : sampleRoster = r := Option.some.inj hr
  refine ⟨m, hm, hiff.mpr fun x hx _ => ?_⟩
  have hpeers : (sortedPeers sampleRoster [99]).zipIdx =
      [(sampleParticipant 97 3, 0), (sampleParticipant 98 5, 1)] := by decide +kernel
  rw [hpeers] at hx
  simp only [List.mem_cons, List.not_mem_nil, or_false] at hx
  rcases hx with rfl | rfl
  · exact ⟨_, _, rfl, by decide +kernel, sampleMessage_builtBy 3⟩
  · exact ⟨_, _, rfl, by decide +kernel, sampleMessage_builtBy 5⟩

/-- When `b` reaches the socket for `a` first, `c` has a session to the key of `b` under the id of
`a`. -/
theorem other_member_taken_for_peer :
    Authenticated (sampleMesh fun _ => 5) [49, 50, 51] (sampleKeypair 7) ∧
      ∃ m, establishMesh (sampleMesh fun _ => 5) [49, 50, 51] [99] (sampleKeypair 7) 3 = .ok m ∧
        (sampleMesh fun _ => 5).polls.findSome? (fullRoster 3) = some sampleRoster ∧
        ¬ m.Bound sampleRoster := by
  have hpeers : (fun m => m.peers.map fun q => (q.id, q.session.remoteStaticPubkey)) <$>
      establishMesh (sampleMesh fun _ => 5) [49, 50, 51] [99] (sampleKeypair 7) 3 =
        .ok [([97], (sampleKeypair 5).publicKeyBytes), ([98], (sampleKeypair 5).publicKeyBytes)] :=
    by decide +kernel
  obtain ⟨m, hm, hmap⟩ := map_eq_ok.mp hpeers
  refine ⟨sampleMesh_authenticated _, m, hm, rfl, fun hbound => ?_⟩
  have hmem : ([97], (sampleKeypair 5).publicKeyBytes) ∈
      m.peers.map fun q => (q.id, q.session.remoteStaticPubkey) := by
    rw [hmap]
    exact List.mem_cons_self
  obtain ⟨q, hq, heq⟩ := List.mem_map.mp hmem
  have hlisted := hbound q hq
  rw [(Prod.mk.inj heq).1, (Prod.mk.inj heq).2] at hlisted
  exact absurd hlisted (by decide +kernel)

end LowBand.Lowbandd
