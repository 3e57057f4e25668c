import LowBand.Crypto.Exchange
import LowBand.Lowbandd.Session
import LowBand.Signaling.Room
import Mathlib.Data.Fintype.Basic

/-!
# A group of mesh nodes

`establish_mesh` runs on several nodes of one room at once. A `MeshWorld` is the signaling server,
the phase of each node, and the network: one request, one bound socket or one received datagram is a
step, so a run is any interleaving of the nodes. The network may lose, repeat and delay what is
sent. A port may be bound again once its socket is closed, by the same or by another node.

`Agree` is what the mesh is for: any two nodes that have returned list each other, one was the
initiator of the pair, and the two hold one pair of keys. `Move` says once what a step can do, and
`move_step` that it does nothing else. A candidate with the tag of a node, whose rest reads as an
address, was published for this node (`meshText_eq`): the texts of addresses do not have the letter
`u`, so the `udp` of a tag is at one place.
-/

namespace LowBand.Lowbandd

open Lib Crypto Signaling

/-! ## Nodes and sockets -/

/-- The bytes of the address and the port of an IPv6 address. -/
def socketAddrV6 (x : SocketAddrV6) : SocketAddr :=
  ⟨x.groups.flatMap fun g => [.ofNat (g.toNat / 256), .ofNat (g.toNat % 256)], x.port.toNat⟩

/-- `str::parse::<SocketAddr>`. -/
def parseAddress : List UInt8 → Option SocketAddr :=
  parseSocketAddr fun s => (SocketAddrV6.parse s).map socketAddrV6

/-- The `local_addr` of a socket bound to `0.0.0.0:0` that was given the port. -/
def localAddr (port : UInt16) : SocketAddrV4 := ⟨0, 0, 0, 0, port⟩

/-- The address `127.0.0.1` with the port, which a receiver on the same machine sees. -/
def loopback (port : UInt16) : SocketAddr := ⟨[127, 0, 0, 1], port.toNat⟩

/-- The candidate `mesh:<peer>:udp:<addr>` of a socket for a peer. -/
def meshText (pid : List UInt8) (port : UInt16) : List UInt8 :=
  meshTag pid ++ (localAddr port).display

/-- The answer of `get_room` as the client reads it. -/
def roomRoster (ps : List Participant) : RoomRoster :=
  ⟨ps.map fun p => ⟨p.id, p.pubkey, p.candidates⟩⟩

/-- The socket that a node has bound for a peer. -/
structure MeshSocket where
  /-- The roster entry of the peer. -/
  peer : RoomParticipant
  /-- The port. -/
  port : UInt16

/-- A peer whose key and address are resolved. -/
structure MeshPair extends MeshSocket where
  /-- The address of the peer's socket for this node. -/
  peerAddr : SocketAddr
  /-- The static key of the peer. -/
  peerPub : Bytes 32

/-- How far `establish_mesh` is on a node. -/
inductive NodePhase where
  /-- It has not joined the room. -/
  | start
  /-- It waits for a full roster. -/
  | joined
  /-- It has bound and published sockets and has peers left to bind one for. -/
  | publishing (sockets : List MeshSocket) (rest : List RoomParticipant)
  /-- It has resolved peers and has sockets left whose peers are not. -/
  | resolving (pairs : List MeshPair) (rest : List MeshSocket)
  /-- A thread for each pair runs its handshake. -/
  | handshaking (pairs : List MeshPair)
  /-- It has returned the mesh, whose sockets on the given ports are open. -/
  | returned (mesh : MeshSession) (ports : List UInt16)
  /-- It has returned an error. -/
  | failed

namespace NodePhase

/-- The ports of the open sockets. -/
def ports : NodePhase → List UInt16
  | .start | .joined | .failed => []
  | .publishing sockets _ => sockets.map MeshSocket.port
  | .resolving pairs rest => pairs.map (·.port) ++ rest.map MeshSocket.port
  | .handshaking pairs => pairs.map (·.port)
  | .returned _ ports => ports

/-- The mesh that was returned. -/
def mesh? : NodePhase → Option MeshSession
  | .returned mesh _ => some mesh
  | _ => none

/-- The ids of the peers in the snapshot of the roster, once it is taken. -/
def listed? : NodePhase → Option (List (List UInt8))
  | .start | .joined | .failed => none
  | .publishing sockets rest => some (sockets.map (·.peer.id) ++ rest.map RoomParticipant.id)
  | .resolving pairs rest => some (pairs.map (·.peer.id) ++ rest.map (·.peer.id))
  | .handshaking pairs => some (pairs.map (·.peer.id))
  | .returned mesh _ => some (mesh.peers.map MeshPeer.id)

end NodePhase

/-- A group of nodes with ids and static keys of their own that run `establish_mesh` with the same
room, group size and code. -/
structure MeshGroup (S : Suite) (ι : Type) where
  /-- The code of the room. -/
  code : List UInt8
  /-- The group size. -/
  groupSize : ℕ
  /-- The id of a node. -/
  id : ι → List UInt8
  /-- Its static key pair. -/
  staticKey : ι → StaticKeypair S
  /-- The machine it runs on. -/
  host : ι → ℕ
  /-- The ephemeral secret it draws for the handshake with a peer. -/
  eSecret : ι → List UInt8 → Bytes 32
  /-- The ids are distinct. -/
  id_injective : Function.Injective id
  /-- The static keys are distinct. -/
  key_injective : Function.Injective fun i => (staticKey i).publicKeyBytes

/-- A datagram in the network of a machine. Every socket is bound to `0.0.0.0` and published as
such, so what is sent stays on the machine. -/
structure Packet where
  /-- The machine. -/
  host : ℕ
  /-- The address it is sent to. -/
  dest : SocketAddr
  /-- What arrives there. -/
  datagram : Datagram

/-- The server, the nodes and the network. -/
structure MeshWorld (ι : Type) where
  /-- The server. -/
  st : RoomStore
  /-- The nodes. -/
  phase : ι → NodePhase
  /-- All that was sent. -/
  packets : List Packet
  /-- The first datagram that the handshake thread of a node for a peer read from its socket. -/
  first : ι → List UInt8 → Option Datagram
  /-- The sockets that were published, each with the node and the peer. -/
  published : List (ι × List UInt8 × UInt16)

/-- One step: a node makes its next request while the clock of the server reads `now`, binds the
next socket and publishes it, meets its deadline or an I/O error, reads the `n`th packet from the
socket of a peer, joins its handshake threads, or closes the sockets of its mesh. -/
inductive MeshEvent (ι : Type) where
  | request (i : ι) (now : ℤ)
  | bind (i : ι) (now : ℤ) (port : UInt16)
  | fail (i : ι)
  | receive (i : ι) (pid : List UInt8) (n : ℕ)
  | finish (i : ι)
  | close (i : ι)

namespace MeshGroup

variable {S : Suite} {ι : Type} (G : MeshGroup S ι)

/-- A static public key. -/
def pubkey (i : ι) : Bytes 32 := (G.staticKey i).publicKeyBytes

/-- The message 1 of a node for a key, with the secret drawn for the peer. -/
def message1 (i : ι) (pid : List UInt8) (peerPub : Bytes 32) : List UInt8 :=
  (NoiseIkInitiator.new (G.staticKey i) peerPub G.code (G.eSecret i pid)).2

/-- The session of a pair, from the first datagram at its socket: the smaller id connects, the
larger one accepts. -/
def session (i : ι) (pid : List UInt8) (peerPub : Bytes 32) (first : Option Datagram) :
    Except SessionError SecureSession :=
  if G.id i < pid then
    SecureSession.connect (G.staticKey i) peerPub G.code (G.eSecret i pid) first
  else SecureSession.accept (G.staticKey i) G.code (G.eSecret i pid) first

/-- What the thread of a pair sends when the handshakes start. -/
def opening (i : ι) (x : MeshPair) : Option Packet :=
  if G.id i < x.peer.id then
    some ⟨G.host i, x.peerAddr, loopback x.port, G.message1 i x.peer.id x.peerPub⟩
  else none

/-- What the thread of a pair sends when it has read its first datagram: an accepted message 1 is
answered. -/
def reply (i : ι) (x : MeshPair) (d : Datagram) : List Packet :=
  if G.id i < x.peer.id then []
  else
    match NoiseIkResponder.receiveMessage1 (G.staticKey i) G.code (d.received msg1Len) with
    | .error _ => []
    | .ok r => [⟨G.host i, d.source, loopback x.port,
        (r.sendMessage2 S (G.eSecret i x.peer.id)).2⟩]

/-- The outcome of the handshake thread of a pair. -/
def join (w : MeshWorld ι) (i : ι) (x : MeshPair) : Except SessionError MeshPeer :=
  match G.session i x.peer.id x.peerPub (w.first i x.peer.id) with
  | .ok session => .ok ⟨x.peer.id, session⟩
  | .error e => .error e

/-- Nobody has joined the room. -/
def start (st : RoomStore) : MeshWorld ι where
  st := st
  phase _ := .start
  packets := []
  first _ _ := none
  published := []

section Step

variable [DecidableEq ι]

/-- A node goes on to a phase. -/
def advance (w : MeshWorld ι) (i : ι) (phase : NodePhase) : MeshWorld ι :=
  { w with phase := Function.update w.phase i phase }

/-- The next request of a node, and the steps that make none: from the last published socket to the
first resolution, and from the last resolution to the handshakes. The threads of a node send as soon
as the handshakes start; a thread that is late is a network that delays its message. -/
def stepRequest (w : MeshWorld ι) (i : ι) (now : ℤ) : MeshWorld ι :=
  match w.phase i with
  | .start =>
    let answer := w.st.postRoomJoin now G.code (G.id i) (encodeKey (G.pubkey i))
    advance { w with st := answer.2 } i (if answer.1 = .ok then .joined else .failed)
  | .joined =>
    let answer := w.st.getRoom now G.code
    match fullRoster G.groupSize (answer.1.map roomRoster) with
    | some roster =>
      advance { w with st := answer.2 } i (.publishing [] (sortedPeers roster (G.id i)))
    | none => { w with st := answer.2 }
  | .publishing sockets [] => advance w i (.resolving [] sockets)
  | .resolving pairs (x :: rest) =>
    match decodeKey x.peer.pubkey with
    | none => advance w i .failed
    | some peerPub =>
      let answer := w.st.getRoom now G.code
      match meshCandidate parseAddress (G.id i) x.peer.id (answer.1.map roomRoster) with
      | some addr =>
        advance { w with st := answer.2 } i (.resolving (pairs ++ [⟨x, addr, peerPub⟩]) rest)
      | none => { w with st := answer.2 }
  | .resolving pairs [] =>
    advance { w with packets := w.packets ++ pairs.filterMap (G.opening i) } i (.handshaking pairs)
  | .publishing _ (_ :: _) | .handshaking _ | .returned _ _ | .failed => w

/-- The thread of a pair that has read nothing yet reads a packet that was sent to its port. -/
def stepReceive (w : MeshWorld ι) (i : ι) (pid : List UInt8) (n : ℕ) : MeshWorld ι :=
  match w.phase i, w.first i pid, w.packets[n]? with
  | .handshaking pairs, none, some p =>
    match pairs.find? fun x => x.peer.id = pid with
    | some x =>
      if p.host = G.host i ∧ p.dest.port = x.port.toNat then
        { w with
          first := Function.update w.first i (Function.update (w.first i) pid (some p.datagram))
          packets := w.packets ++ G.reply i x p.datagram }
      else w
    | none => w
  | _, _, _ => w

variable [Fintype ι]

/-- A node binds the socket for the next peer, on a port that no open socket of the machine has, and
publishes it. -/
def stepBind (w : MeshWorld ι) (i : ι) (now : ℤ) (port : UInt16) : MeshWorld ι :=
  match w.phase i with
  | .publishing sockets (p :: rest) =>
    if ∃ j, G.host j = G.host i ∧ port ∈ (w.phase j).ports then w
    else
      let answer := w.st.postRoomCandidate now G.code (G.id i) (meshText p.id port)
      if answer.1 = .accepted then
        advance { w with st := answer.2, published := w.published ++ [(i, p.id, port)] } i
          (.publishing (sockets ++ [⟨p, port⟩]) rest)
      else advance { w with st := answer.2 } i .failed
  | _ => w

/-- One step. -/
def step (w : MeshWorld ι) : MeshEvent ι → MeshWorld ι
  | .request i now => G.stepRequest w i now
  | .bind i now port => G.stepBind w i now port
  | .fail i =>
    match w.phase i with
    | .joined | .publishing _ _ | .resolving _ _ | .handshaking _ => advance w i .failed
    | .start | .returned _ _ | .failed => w
  | .receive i pid n => G.stepReceive w i pid n
  | .finish i =>
    match w.phase i with
    | .handshaking pairs =>
      match pairs.mapM (G.join w i) with
      | .ok peers => advance w i
          (.returned ⟨G.id i, peers.insertionSort fun a b => a.id ≤ b.id⟩ (pairs.map (·.port)))
      | .error _ => advance w i .failed
    | _ => w
  | .close i =>
    match w.phase i with
    | .returned mesh _ => advance w i (.returned mesh [])
    | _ => w

end Step

/-- Any two nodes that have returned list each other, one of them was the initiator of their pair
and the other one was not, and each of their two sessions sends with the key with which the other
one receives. -/
def Agree (w : MeshWorld ι) : Prop :=
  ∀ i j, i ≠ j → ∀ m m', (w.phase i).mesh? = some m → (w.phase j).mesh? = some m' →
    (∃ q ∈ m.peers, q.id = G.id j) ∧ (∃ q ∈ m'.peers, q.id = G.id i) ∧
      ∀ q ∈ m.peers, q.id = G.id j → ∀ q' ∈ m'.peers, q'.id = G.id i →
        q.session.isInitiator = !q'.session.isInitiator ∧
          q.session.send.key = q'.session.recv.key ∧ q.session.recv.key = q'.session.send.key

/-- The handshakes of the group, with what was sent and read so far. The thread of a node for a peer
is an initiator when the node has the smaller id. -/
def exchange (w : MeshWorld ι) : Exchange S (ι × ι) where
  code := G.code
  static k := G.staticKey k.1
  target k := G.pubkey k.2
  eSecret k := G.eSecret k.1 (G.id k.2)
  Sent k := G.id k.1 < G.id k.2 ∧
    ∃ p ∈ w.packets, p.datagram.payload = G.message1 k.1 (G.id k.2) (G.pubkey k.2)
  arrived1 k :=
    if G.id k.1 < G.id k.2 then none else (w.first k.1 (G.id k.2)).map (·.received msg1Len)
  arrived2 k :=
    if G.id k.1 < G.id k.2 then (w.first k.1 (G.id k.2)).map (·.received msg2Len) else none

/-- No id of the group continues another one behind a colon. -/
def Unambiguous : Prop := ∀ i j, ¬ candidateTag (G.id i) <+: G.id j

/-- The store has no member and no candidate of the room. -/
def Vacant (st : RoomStore) : Prop :=
  scanPrefix st.roomMembers (candidateTag G.code) = [] ∧
    scanPrefix st.roomCandidates (candidateTag G.code) = []

/-! ## Resolving a peer -/

/-- The `udp` of a tag is at one place, when nothing behind it has its letter. -/
theorem eq_nil_of_udp {t x y : List UInt8} (hx : 117 ∉ x)
    (h : [58, 117, 100, 112, 58] ++ x = t ++ ([58, 117, 100, 112, 58] ++ y)) : t = [] := by
  have hcount := congrArg (List.count 117) h
  simp only [List.count_append, List.count_eq_zero_of_not_mem hx] at hcount
  have ht : 117 ∉ t := by
    intro hmem
    have hpos := List.count_pos_iff.mpr hmem
    have hone : List.count 117 [58, 117, 100, 112, 58] = (1 : ℕ) := by decide
    omega
  have hidx := congrArg (List.idxOf 117) h
  rw [List.idxOf_append_of_notMem ht] at hidx
  have htag : ∀ z : List UInt8, ([58, 117, 100, 112, 58] ++ z).idxOf 117 = 1 := fun _ => rfl
  rw [htag, htag] at hidx
  exact List.length_eq_zero_iff.mp (by omega)

/-- What reads as an address has no letter `u`. -/
theorem notMem_of_parseAddress {s : List UInt8} {a : SocketAddr} (h : parseAddress s = some a) :
    117 ∉ s := by
  have hchar : isAddrChar 117 = false := by decide
  unfold parseAddress parseSocketAddr at h
  intro hmem
  cases h4 : SocketAddrV4.parse s with
  | some x => exact Bool.false_ne_true (hchar ▸ SocketAddrV4.chars_of_parse h4 117 hmem)
  | none =>
    rw [h4] at h
    obtain ⟨x, h6, -⟩ := Option.map_eq_some_iff.mp h
    exact Bool.false_ne_true (hchar ▸ SocketAddrV6.chars_of_parse h6 117 hmem)

/-- A written address reads back. -/
theorem parseAddress_display (x : SocketAddrV4) : parseAddress x.display = some (socketAddr x) := by
  simp [parseAddress, parseSocketAddr]

/-- A published candidate whose rest behind the tag of a node reads as an address is one for the
node, and reads as the address of the socket. -/
theorem meshText_eq {q me rest : List UInt8} {port : UInt16} {a : SocketAddr}
    (h : meshText q port = meshTag me ++ rest) (ha : parseAddress rest = some a) :
    q = me ∧ a = socketAddr (localAddr port) := by
  have hdisplay := parseAddress_display (localAddr port)
  simp only [meshText, meshTag, List.append_assoc, List.append_cancel_left_eq] at h
  have hsame : q = me ∧ (localAddr port).display = rest := by
    rcases List.append_eq_append_iff.mp h with ⟨t, rfl, ht⟩ | ⟨t, rfl, ht⟩
    · obtain rfl := eq_nil_of_udp (notMem_of_parseAddress hdisplay) ht
      exact ⟨(List.append_nil q).symm, List.append_cancel_left ht⟩
    · obtain rfl := eq_nil_of_udp (notMem_of_parseAddress ha) ht
      exact ⟨List.append_nil me, (List.append_cancel_left ht).symm⟩
  obtain ⟨rfl, rfl⟩ := hsame
  exact ⟨rfl, Option.some.inj (ha.symm.trans hdisplay)⟩

/-! ## What a step can do -/

/-- The roster of the room in a store. -/
def rosterOf (st : RoomStore) : RoomRoster :=
  roomRoster ((st.roomParticipants G.code).map fun pid =>
    ⟨pid, (st.participantPubkey G.code pid).getD [], st.participantCandidates G.code pid⟩)

/-- Two stores have the same members and candidates. -/
def SameRoom (st st' : RoomStore) : Prop :=
  st'.roomMembers = st.roomMembers ∧ st'.roomCandidates = st.roomCandidates

/-- A room is the same as itself. -/
theorem SameRoom.refl (st : RoomStore) : SameRoom st st := ⟨rfl, rfl⟩

/-- The same room has the same keys. -/
theorem SameRoom.participantPubkey {st st' : RoomStore} (h : SameRoom st st')
    (code pid : List UInt8) : st'.participantPubkey code pid = st.participantPubkey code pid := by
  unfold RoomStore.participantPubkey
  rw [h.1]

/-- A poll answers with the roster of the store, or not at all. -/
theorem getRoom_rosterOf (st : RoomStore) (now : ℤ) :
    ((st.getRoom now G.code).1.map roomRoster = some (G.rosterOf st) ∧
        (st.getRoom now G.code).2 = st) ∨
      (st.getRoom now G.code).1.map roomRoster = none ∧ SameRoom st (st.getRoom now G.code).2 := by
  rcases st.getRoom_cases now G.code with ⟨-, h⟩ | ⟨h, hst | hst⟩
  · rw [h]
    exact .inl ⟨rfl, rfl⟩
  · rw [h, hst]
    exact .inr ⟨rfl, rfl, rfl⟩
  · rw [h, hst]
    exact .inr ⟨rfl, rfl, rfl⟩

section Move

variable [DecidableEq ι]

/-- What a step can do: a poll without effect, or one node goes on. -/
inductive Move (w : MeshWorld ι) : MeshWorld ι → Prop
  | poll {st' : RoomStore} (hst : SameRoom w.st st') : Move w { w with st := st' }
  | fail {i : ι} {st' : RoomStore} (hst : SameRoom w.st st') :
      Move w (advance { w with st := st' } i .failed)
  | join {i : ι} {st' : RoomStore} (hphase : w.phase i = .start)
      (hmembers : st'.roomMembers =
        w.st.roomMembers.insert (memberKey G.code (G.id i)) (encodeKey (G.pubkey i)))
      (hcandidates : st'.roomCandidates = w.st.roomCandidates) :
      Move w (advance { w with st := st' } i .joined)
  | snapshot {i : ι} (hphase : w.phase i = .joined) :
      Move w (advance w i (.publishing [] (sortedPeers (G.rosterOf w.st) (G.id i))))
  | bind {i : ι} {sockets : List MeshSocket} {p : RoomParticipant} {rest : List RoomParticipant}
      {port : UInt16} (hphase : w.phase i = .publishing sockets (p :: rest))
      (hport : port ∉ sockets.map MeshSocket.port) :
      Move w (advance { w with
        st := w.st.nextCandidateSeq.2.addRoomCandidate G.code (G.id i) w.st.candSeq
          (meshText p.id port)
        published := w.published ++ [(i, p.id, port)] } i
          (.publishing (sockets ++ [⟨p, port⟩]) rest))
  | published {i : ι} {sockets : List MeshSocket} (hphase : w.phase i = .publishing sockets []) :
      Move w (advance w i (.resolving [] sockets))
  | resolve {i : ι} {pairs : List MeshPair} {x : MeshSocket} {rest : List MeshSocket}
      {addr : SocketAddr} {peerPub : Bytes 32} (hphase : w.phase i = .resolving pairs (x :: rest))
      (hkey : decodeKey x.peer.pubkey = some peerPub)
      (haddr : meshCandidate parseAddress (G.id i) x.peer.id (some (G.rosterOf w.st)) = some addr) :
      Move w (advance w i (.resolving (pairs ++ [⟨x, addr, peerPub⟩]) rest))
  | launch {i : ι} {pairs : List MeshPair} (hphase : w.phase i = .resolving pairs []) :
      Move w (advance { w with packets := w.packets ++ pairs.filterMap (G.opening i) } i
        (.handshaking pairs))
  | receive {i : ι} {pairs : List MeshPair} {x : MeshPair} {p : Packet}
      (hphase : w.phase i = .handshaking pairs) (hx : x ∈ pairs)
      (hfirst : w.first i x.peer.id = none) (hp : p ∈ w.packets)
      (hport : p.dest.port = x.port.toNat) :
      Move w { w with
        first := Function.update w.first i
          (Function.update (w.first i) x.peer.id (some p.datagram))
        packets := w.packets ++ G.reply i x p.datagram }
  | finish {i : ι} {pairs : List MeshPair} {peers : List MeshPeer}
      (hphase : w.phase i = .handshaking pairs) (hjoin : pairs.mapM (G.join w i) = .ok peers) :
      Move w (advance w i
        (.returned ⟨G.id i, peers.insertionSort fun a b => a.id ≤ b.id⟩ (pairs.map (·.port))))
  | close {i : ι} {mesh : MeshSession} {ports : List UInt16}
      (hphase : w.phase i = .returned mesh ports) : Move w (advance w i (.returned mesh []))

variable {G}

/-- A request does nothing or makes a move. -/
theorem move_stepRequest (w : MeshWorld ι) (i : ι) (now : ℤ) :
    G.stepRequest w i now = w ∨ G.Move w (G.stepRequest w i now) := by
  unfold stepRequest
  split
  · rename_i hphase
    dsimp only
    -- The server takes the join or refuses it.
    obtain ⟨-, -, h⟩ | ⟨hne, hst⟩ :=
      w.st.postRoomJoin_cases now G.code (G.id i) (encodeKey (G.pubkey i))
    · rw [h]
      exact .inr (Move.join hphase rfl rfl)
    · rw [if_neg hne]
      refine .inr (Move.fail ?_)
      rcases hst with hst | hst <;> rw [hst] <;> exact ⟨rfl, rfl⟩
  · rename_i hphase
    dsimp only
    -- The room is there with a roster, or has expired.
    obtain ⟨h, hst⟩ | ⟨h, hst⟩ := G.getRoom_rosterOf w.st now
    · rw [h, hst]
      simp only [fullRoster]
      split
      · rename_i roster hroster
        obtain ⟨-, rfl⟩ := Option.ite_none_right_eq_some.mp hroster |>.imp_right Option.some.inj
        exact .inr (Move.snapshot hphase)
      · exact .inl rfl
    · rw [h]
      exact .inr (Move.poll hst)
  · rename_i sockets hphase
    exact .inr (Move.published hphase)
  · rename_i pairs x rest hphase
    split
    · exact .inr (Move.fail (SameRoom.refl w.st))
    · rename_i peerPub hkey
      dsimp only
      obtain ⟨h, hst⟩ | ⟨h, hst⟩ := G.getRoom_rosterOf w.st now
      · rw [h, hst]
        split
        · rename_i addr haddr
          exact .inr (Move.resolve hphase hkey haddr)
        · exact .inl rfl
      · rw [h]
        exact .inr (Move.poll hst)
  · rename_i pairs hphase
    exact .inr (Move.launch hphase)
  all_goals exact .inl rfl

/-- Reading a packet does nothing or makes a move. -/
theorem move_stepReceive (w : MeshWorld ι) (i : ι) (pid : List UInt8) (n : ℕ) :
    G.stepReceive w i pid n = w ∨ G.Move w (G.stepReceive w i pid n) := by
  unfold stepReceive
  split
  · rename_i pairs p hphase hfirst hp
    split
    · rename_i x hx
      split
      · rename_i hdest
        obtain rfl : x.peer.id = pid := by simpa using List.find?_some hx
        exact .inr (Move.receive hphase (List.mem_of_find?_eq_some hx) hfirst
          (List.mem_of_getElem? hp) hdest.2)
      · exact .inl rfl
    · exact .inl rfl
  · exact .inl rfl

variable [Fintype ι]

/-- Binding a socket does nothing or makes a move. -/
theorem move_stepBind (w : MeshWorld ι) (i : ι) (now : ℤ) (port : UInt16) :
    G.stepBind w i now port = w ∨ G.Move w (G.stepBind w i now port) := by
  unfold stepBind
  split
  · rename_i sockets p rest hphase
    split
    · exact .inl rfl
    · rename_i hfree
      have hport : port ∉ sockets.map MeshSocket.port :=
        fun hmem => hfree ⟨i, rfl, by rw [hphase]; exact hmem⟩
      dsimp only
      obtain ⟨-, -, h⟩ | ⟨hne, hst⟩ :=
        w.st.postRoomCandidate_cases now G.code (G.id i) (meshText p.id port)
      · rw [h]
        exact .inr (Move.bind hphase hport)
      · rw [if_neg hne]
        refine .inr (Move.fail ?_)
        rcases hst with hst | hst <;> rw [hst] <;> exact ⟨rfl, rfl⟩
  · exact .inl rfl

/-- A step does nothing or makes a move. -/
theorem move_step (w : MeshWorld ι) (e : MeshEvent ι) : G.step w e = w ∨ G.Move w (G.step w e) := by
  -- Each event is one of the moves, or leaves the world as it is.
  cases e with
  | request i now => exact move_stepRequest w i now
  | bind i now port => exact move_stepBind w i now port
  | receive i pid n => exact move_stepReceive w i pid n
  | fail i =>
    dsimp only [step]
    split
    all_goals first
      | exact .inr (Move.fail (SameRoom.refl w.st))
      | exact .inl rfl
  | finish i =>
    dsimp only [step]
    split
    · rename_i pairs hphase
      split
      · rename_i peers hjoin
        exact .inr (Move.finish hphase hjoin)
      · exact .inr (Move.fail (SameRoom.refl w.st))
    · exact .inl rfl
  | close i =>
    dsimp only [step]
    split
    · rename_i mesh ports hphase
      exact .inr (Move.close hphase)
    · exact .inl rfl

end Move

end MeshGroup

end LowBand.Lowbandd
