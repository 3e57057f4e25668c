import LowBand.Lowbandd.MeshGroup
import Mathlib.Data.Fintype.Prod

/-!
# Mesh agreement

The nodes of a group that return from `establish_mesh` agree, in every run in which no id continues
another one behind a colon. The argument goes from the store to the sessions. A candidate in the
room was published by a node of the group (`Inv.candidates`), and a node resolves a peer to the
socket that the peer bound for it (`meshCandidate_eq`). So the message 1 of a pair goes to the one
socket of the pair (`Inv.packets`), and with ideal primitives nobody else accepts it
(`Inv.accepted`). Snapshots of the roster differ, but of two nodes the one with the later snapshot
lists the other (`Inv.snapshots`), and a node that is listed by a finished one lists it as well
(`Inv.lists_symm`). `agree_of_unambiguous` puts this together for every run.

Where an id does continue another one, the roster shows the candidates of the longer id under the
shorter one. Two nodes that take these for addresses of the shorter id can reach each other's socket
there: `not_agree_continued_id` is a run in which all three finish and two hold different keys.
-/

namespace LowBand.Lowbandd

open Lib Crypto Signaling

namespace MeshGroup

variable {S : Suite} {ι : Type} (G : MeshGroup S ι)

/-! ## The invariant -/

/-- A roster entry of another node of the group, with its key. -/
def Known (i : ι) (p : RoomParticipant) : Prop :=
  ∃ j, j ≠ i ∧ p.id = G.id j ∧ p.pubkey = encodeKey (G.pubkey j)

/-- A socket of a node is published for a peer of the group. -/
def SocketOk (w : MeshWorld ι) (i : ι) (x : MeshSocket) : Prop :=
  G.Known i x.peer ∧ (i, x.peer.id, x.port) ∈ w.published

/-- A pair has the key of the peer and the address of the socket that the peer published for this
node. -/
def PairOk (w : MeshWorld ι) (i : ι) (x : MeshPair) : Prop :=
  G.SocketOk w i x.toMeshSocket ∧ ∃ j port, x.peer.id = G.id j ∧ x.peerPub = G.pubkey j ∧
    (j, G.id i, port) ∈ w.published ∧ x.peerAddr = socketAddr (localAddr port)

/-- A session of a returned mesh comes from the first datagram at the socket of the pair. -/
def PeerOk (w : MeshWorld ι) (i : ι) (q : MeshPeer) : Prop :=
  ∃ j d, j ≠ i ∧ q.id = G.id j ∧ w.first i (G.id j) = some d ∧
    G.session i (G.id j) (G.pubkey j) (some d) = .ok q.session

/-- What a node has in a phase. -/
def PhaseOk (w : MeshWorld ι) (i : ι) : NodePhase → Prop
  | .start | .joined | .failed => True
  | .publishing sockets rest => (∀ x ∈ sockets, G.SocketOk w i x) ∧ ∀ p ∈ rest, G.Known i p
  | .resolving pairs rest => (∀ x ∈ pairs, G.PairOk w i x) ∧ ∀ x ∈ rest, G.SocketOk w i x
  | .handshaking pairs => ∀ x ∈ pairs, G.PairOk w i x
  | .returned mesh _ => ∀ q ∈ mesh.peers, G.PeerOk w i q

/-- A node has joined and has not failed. -/
def Live : NodePhase → Prop
  | .start | .failed => False
  | _ => True

/-- A node that lists peers has joined. -/
theorem live_of_listed {phase : NodePhase} {l : List (List UInt8)} (h : phase.listed? = some l) :
    Live phase := by
  cases phase with
  | start | failed => cases h
  | _ => trivial

/-- What the phase of a node says about a socket that it has published: none before the snapshot, an
open one while sockets are bound, and one for a listed peer from then on. -/
def Covers : NodePhase → List UInt8 → UInt16 → Prop
  | .start, _, _ | .joined, _, _ => False
  | .publishing sockets _, q, port => ∃ x ∈ sockets, x.peer.id = q ∧ x.port = port
  | .resolving pairs rest, q, _ => q ∈ pairs.map (·.peer.id) ++ rest.map (·.peer.id)
  | .handshaking pairs, q, _ => q ∈ pairs.map (·.peer.id)
  | .returned mesh _, q, _ => q ∈ mesh.peers.map MeshPeer.id
  | .failed, _, _ => True

/-- A packet is as long as a message 2, or it is the message 1 of a pair, sent to the port that the
peer published for the sender, which has published one for the peer. -/
def PacketOk (w : MeshWorld ι) (p : Packet) : Prop :=
  p.datagram.payload.length = msg2Len ∨ ∃ i j port port', G.id i < G.id j ∧
    (j, G.id i, port) ∈ w.published ∧ (i, G.id j, port') ∈ w.published ∧
    p.dest.port = port.toNat ∧ p.datagram.payload = G.message1 i (G.id j) (G.pubkey j)

/-- What every run keeps. -/
structure Inv (w : MeshWorld ι) : Prop where
  /-- The members of the room are nodes of the group, with their keys. -/
  members : ∀ pid key, w.st.participantPubkey G.code pid = some key →
    ∃ j, pid = G.id j ∧ key = encodeKey (G.pubkey j)
  /-- A node that has joined is a member. -/
  joined : ∀ i, Live (w.phase i) →
    w.st.participantPubkey G.code (G.id i) = some (encodeKey (G.pubkey i))
  /-- The candidates of the room are published sockets. -/
  candidates : ∀ k v, candidateTag G.code <+: k → w.st.roomCandidates.lookup k = some v →
    ∃ j q port seq, (j, q, port) ∈ w.published ∧ k = memberCandidateKey G.code (G.id j) seq ∧
      v = meshText q port
  /-- What a node has is right. -/
  phases : ∀ i, G.PhaseOk w i (w.phase i)
  /-- The published sockets of a node are those of its phase. -/
  covers : ∀ i q port, (i, q, port) ∈ w.published → Covers (w.phase i) q port
  /-- A node publishes a port for one peer. -/
  ports : ∀ i q q' port, (i, q, port) ∈ w.published → (i, q', port) ∈ w.published → q = q'
  /-- The packets are messages of the group. -/
  packets : ∀ p ∈ w.packets, G.PacketOk w p
  /-- What a thread has read was sent to the port of a published socket for its peer. -/
  first : ∀ i q d, w.first i q = some d → ∃ port, (i, q, port) ∈ w.published ∧
    ∃ p ∈ w.packets, p.datagram = d ∧ p.dest.port = port.toNat
  /-- Of two nodes with a snapshot of the roster, one lists the other. -/
  snapshots : ∀ i j, i ≠ j → ∀ l l', (w.phase i).listed? = some l → (w.phase j).listed? = some l' →
    G.id j ∈ l ∨ G.id i ∈ l'

/-- Nothing that was published, sent or read is forgotten. -/
def Extends (w w' : MeshWorld ι) : Prop :=
  (∀ x ∈ w.published, x ∈ w'.published) ∧ (∀ p ∈ w.packets, p ∈ w'.packets) ∧
    ∀ i q d, w.first i q = some d → w'.first i q = some d

variable {G}

section Keep

variable [DecidableEq ι] {w w' : MeshWorld ι} {i : ι}

/-- When a node goes on, what held of the phases before and holds of the new phase holds of the
phases after it. -/
theorem forall_advance {P : ι → NodePhase → Prop} {phase : NodePhase}
    (hold : ∀ j, P j (w.phase j)) (hnew : P i phase) (j : ι) :
    P j ((advance w i phase).phase j) := by
  by_cases hj : j = i
  · subst hj
    simpa [advance] using hnew
  · simpa [advance, hj] using hold j

/-- A move forgets nothing. -/
theorem Move.extends (h : G.Move w w') : Extends w w' := by
  cases h with
  | bind | launch =>
    exact ⟨by simp +contextual [advance], by simp +contextual [advance], fun _ _ _ h => h⟩
  | @receive i pairs x p hphase hx hfirst hp hport =>
    refine ⟨fun _ h => h, fun _ h => List.mem_append_left _ h, fun j q d hd => ?_⟩
    by_cases hj : j = i
    · subst hj
      by_cases hq : q = x.peer.id
      · rw [hq, hfirst] at hd
        cases hd
      · simpa [hq] using hd
    · simpa [hj] using hd
  | _ => exact ⟨fun _ h => h, fun _ h => h, fun _ _ _ h => h⟩

end Keep

section Mono

variable {w w' : MeshWorld ι} {i : ι}

/-- What holds of a socket holds in an extension. -/
theorem SocketOk.mono {x : MeshSocket} (h : G.SocketOk w i x) (hw : Extends w w') :
    G.SocketOk w' i x :=
  ⟨h.1, hw.1 _ h.2⟩

/-- So does what holds of a pair. -/
theorem PairOk.mono {x : MeshPair} (h : G.PairOk w i x) (hw : Extends w w') : G.PairOk w' i x := by
  obtain ⟨hsocket, j, port, hid, hkey, hpub, haddr⟩ := h
  exact ⟨hsocket.mono hw, j, port, hid, hkey, hw.1 _ hpub, haddr⟩

/-- So does what holds of a packet. -/
theorem PacketOk.mono {p : Packet} (h : G.PacketOk w p) (hw : Extends w w') : G.PacketOk w' p := by
  refine h.imp_right ?_
  rintro ⟨i, j, port, port', hlt, hpub, hpub', hrest⟩
  exact ⟨i, j, port, port', hlt, hw.1 _ hpub, hw.1 _ hpub', hrest⟩

/-- So does what holds of a phase. -/
theorem PhaseOk.mono {phase : NodePhase} (h : G.PhaseOk w i phase) (hw : Extends w w') :
    G.PhaseOk w' i phase := by
  cases phase with
  | start | joined | failed => trivial
  | publishing sockets rest => exact ⟨fun x hx => (h.1 x hx).mono hw, h.2⟩
  | resolving pairs rest => exact ⟨fun x hx => (h.1 x hx).mono hw, fun x hx => (h.2 x hx).mono hw⟩
  | handshaking pairs => exact fun x hx => (h x hx).mono hw
  | returned mesh ports =>
    intro q hq
    obtain ⟨j, d, hj, hid, hfirst, hsession⟩ := h q hq
    exact ⟨j, d, hj, hid, hw.2.2 _ _ _ hfirst, hsession⟩

end Mono

/-! ## A move keeps the invariant -/

section Roster

variable {w : MeshWorld ι} {i j : ι}

/-- The key of a member after a join. -/
theorem participantPubkey_insert {st st' : RoomStore}
    (h : st'.roomMembers =
      st.roomMembers.insert (memberKey G.code (G.id i)) (encodeKey (G.pubkey i)))
    (pid : List UInt8) : st'.participantPubkey G.code pid =
      if pid = G.id i then some (encodeKey (G.pubkey i)) else st.participantPubkey G.code pid := by
  unfold RoomStore.participantPubkey
  rw [h]
  split_ifs with hpid
  · rw [hpid, AList.lookup_insert]
  · exact AList.lookup_insert_ne fun heq => hpid (memberKey_inj rfl heq).2

/-- The roster of the store lists a node of the group that is a member. -/
theorem mem_rosterOf (hinv : G.Inv w) {p : RoomParticipant}
    (hp : p ∈ (G.rosterOf w.st).participants) :
    ∃ j, p.id = G.id j ∧ p.pubkey = encodeKey (G.pubkey j) ∧
      p.candidates = w.st.participantCandidates G.code (G.id j) := by
  obtain ⟨a, ha, rfl⟩ := List.mem_map.mp hp
  obtain ⟨pid, hpid, rfl⟩ := List.mem_map.mp ha
  obtain ⟨key, hkey⟩ := Option.ne_none_iff_exists'.mp (RoomStore.mem_roomParticipants.mp hpid)
  obtain ⟨j, rfl, rfl⟩ := hinv.members pid key hkey
  exact ⟨j, rfl, by rw [hkey]; rfl, rfl⟩

/-- The peers in a snapshot of the roster. -/
theorem known_of_mem_sortedPeers (hinv : G.Inv w) {p : RoomParticipant}
    (hp : p ∈ sortedPeers (G.rosterOf w.st) (G.id i)) : G.Known i p := by
  obtain ⟨hmem, hne⟩ := List.mem_filter.mp ((List.mem_insertionSort _).mp hp)
  obtain ⟨j, hid, hkey, -⟩ := mem_rosterOf hinv hmem
  refine ⟨j, ?_, hid, hkey⟩
  rintro rfl
  exact (of_decide_eq_true hne) hid

/-- A snapshot of the roster lists every other node that has joined. -/
theorem mem_sortedPeers_of_live (hinv : G.Inv w) (hij : j ≠ i) (hlive : Live (w.phase j)) :
    G.id j ∈ (sortedPeers (G.rosterOf w.st) (G.id i)).map RoomParticipant.id := by
  have hmember : G.id j ∈ w.st.roomParticipants G.code :=
    RoomStore.mem_roomParticipants.mpr (by rw [hinv.joined j hlive]; exact Option.some_ne_none _)
  have hne : G.id j ≠ G.id i := fun h => hij (G.id_injective h)
  refine List.mem_map.mpr ⟨_, (List.mem_insertionSort _).mpr (List.mem_filter.mpr
    ⟨List.mem_map.mpr ⟨_, List.mem_map.mpr ⟨G.id j, hmember, rfl⟩, rfl⟩, ?_⟩), rfl⟩
  exact decide_eq_true hne

/-- When no id continues another one, a peer is resolved to a socket that it published for the
node. -/
theorem meshCandidate_eq (hinv : G.Inv w) (hG : G.Unambiguous) {addr : SocketAddr}
    (h : meshCandidate parseAddress (G.id i) (G.id j) (some (G.rosterOf w.st)) = some addr) :
    ∃ port, (j, G.id i, port) ∈ w.published ∧ addr = socketAddr (localAddr port) := by
  simp only [meshCandidate, Option.bind_eq_bind, Option.bind_eq_some_iff] at h
  obtain ⟨pp, hfind, hparse⟩ := h
  have hid : pp.id = G.id j := by simpa using List.find?_some hfind
  obtain ⟨j', hid', -, hcands⟩ := mem_rosterOf hinv (List.mem_of_find?_eq_some hfind)
  obtain rfl : j' = j := G.id_injective (hid'.symm.trans hid)
  obtain ⟨rest, hrest, haddr⟩ := List.exists_of_findSome?_eq_some hparse
  obtain ⟨c, hc, htag⟩ := List.mem_filterMap.mp hrest
  obtain ⟨hpre, rfl⟩ := Option.ite_none_right_eq_some.mp htag |>.imp_right Option.some.inj
  rw [hcands] at hc
  obtain ⟨⟨k, v⟩, he, rfl⟩ := List.mem_map.mp hc
  obtain ⟨hk, hv⟩ := mem_scanPrefix.mp he
  have hcode : candidateTag G.code <+: k := by
    rw [memberTag_eq] at hk
    exact (List.prefix_append _ _).trans hk
  obtain ⟨author, q, port, seq, hpub, rfl, rfl⟩ := hinv.candidates k v hcode hv
  -- the scan for the peer finds only what the peer published
  obtain rfl : author = j' := by
    rcases ((memberTag_prefix_iff rfl).mp hk).2 with heq | hcont
    · exact G.id_injective heq
    · exact absurd hcont (hG j' author)
  have hsplit : meshText q port = meshTag (G.id i) ++
      (meshText q port).drop (meshTag (G.id i)).length :=
    (List.prefix_iff_eq_append.mp (List.isPrefixOf_iff_prefix.mp hpre)).symm
  obtain ⟨rfl, rfl⟩ := meshText_eq hsplit haddr
  exact ⟨port, hpub, rfl⟩

/-- The session of a pair that was joined. -/
theorem peerOk_of_join {x : MeshPair} {q : MeshPeer} (hx : G.PairOk w i x)
    (h : G.join w i x = .ok q) : q.id = x.peer.id ∧ G.PeerOk w i q := by
  obtain ⟨⟨⟨j, hj, hid, -⟩, -⟩, j', -, hid', hkey, -⟩ := hx
  obtain rfl : j' = j := G.id_injective (hid'.symm.trans hid)
  unfold join at h
  split at h
  · rename_i session hsession
    obtain rfl := Except.ok.inj h
    rw [hid, hkey] at hsession
    refine ⟨rfl, j', ?_⟩
    cases hfirst : w.first i (G.id j') with
    | none =>
      rw [hfirst] at hsession
      unfold MeshGroup.session at hsession
      split at hsession <;> cases hsession
    | some d =>
      rw [hfirst] at hsession
      exact ⟨d, hj, hid, rfl, hsession⟩
  · cases h

/-- The ids in a returned mesh are those of the pairs. -/
theorem mem_peers_of_finish {i : ι} {pairs : List MeshPair} {peers : List MeshPeer}
    (hpairs : ∀ x ∈ pairs, G.PairOk w i x) (hjoin : pairs.mapM (G.join w i) = .ok peers)
    {q : List UInt8} (hq : q ∈ pairs.map (·.peer.id)) :
    q ∈ (peers.insertionSort fun a b => a.id ≤ b.id).map MeshPeer.id := by
  obtain ⟨x, hx, rfl⟩ := List.mem_map.mp hq
  obtain ⟨y, hy, hxy⟩ := (mem_of_mapM_eq_ok hjoin).1 x hx
  exact List.mem_map.mpr ⟨y, (List.mem_insertionSort _).mpr hy,
    (peerOk_of_join (hpairs x hx) hxy).1⟩

/-- The phase of a node lists the peers that it listed before, or all the others that have
joined. -/
def KeepsListed (G : MeshGroup S ι) (w : MeshWorld ι) (i : ι) (phase : NodePhase) : Prop :=
  ∀ l, phase.listed? = some l → Live (w.phase i) ∧
    ((∃ l', (w.phase i).listed? = some l' ∧ l' ⊆ l) ∨ ∀ j, j ≠ i → Live (w.phase j) → G.id j ∈ l)

/-- A node keeps listing its peers in a phase that lists them. -/
theorem keepsListed_of_subset {i : ι} {phase phase' : NodePhase} {l : List (List UInt8)}
    (hphase : w.phase i = phase) (hl : phase.listed? = some l)
    (hsub : ∀ l', phase'.listed? = some l' → l ⊆ l') : G.KeepsListed w i phase' := by
  intro l' hl'
  subst hphase
  exact ⟨live_of_listed hl, .inl ⟨l, hl, hsub l' hl'⟩⟩

end Roster

section Moves

variable [DecidableEq ι] {w w' : MeshWorld ι}

/-- A move keeps the members of the room. -/
theorem Inv.members_move (hinv : G.Inv w) (h : G.Move w w') (pid key : List UInt8)
    (hkey : w'.st.participantPubkey G.code pid = some key) :
    ∃ j, pid = G.id j ∧ key = encodeKey (G.pubkey j) := by
  cases h with
  | poll hst | fail hst => exact hinv.members pid key ((hst.participantPubkey _ _).symm.trans hkey)
  | @join i st' hphase hmembers hcandidates =>
    have hpubkey := (participantPubkey_insert hmembers pid).symm.trans hkey
    split_ifs at hpubkey with hpid
    · exact ⟨i, hpid, (Option.some.inj hpubkey).symm⟩
    · exact hinv.members pid key hpubkey
  | _ => exact hinv.members pid key hkey

/-- After a move every live node is a member. -/
theorem Inv.joined_move (hinv : G.Inv w) (h : G.Move w w') (j : ι) (hlive : Live (w'.phase j)) :
    w'.st.participantPubkey G.code (G.id j) = some (encodeKey (G.pubkey j)) := by
  cases h with
  | poll hst => exact (hst.participantPubkey _ _).trans (hinv.joined j hlive)
  | fail hst =>
    refine (hst.participantPubkey _ _).trans (hinv.joined j ?_)
    exact forall_advance (P := fun j phase => Live phase → Live (w.phase j)) (fun _ h => h)
      False.elim j hlive
  -- The one who joins is registered now, the others were before.
  | @join i st' hphase hmembers hcandidates =>
    refine (participantPubkey_insert hmembers (G.id j)).trans ?_
    split_ifs with hj
    · rw [G.id_injective hj]
    · refine hinv.joined j (forall_advance (P := fun j phase => j ≠ i → Live phase →
        Live (w.phase j)) (fun _ _ h => h) (fun h => absurd rfl h) j ?_ hlive)
      rintro rfl
      exact hj rfl
  | receive => exact hinv.joined j hlive
  -- The other moves leave the members as they are.
  | @snapshot i hphase | @bind i _ _ _ _ hphase _ | @published i _ hphase
  | @resolve i _ _ _ _ _ hphase _ _ | @launch i _ hphase | @finish i _ _ hphase _
  | @close i _ _ hphase =>
    refine hinv.joined j (forall_advance (P := fun j phase => Live phase → Live (w.phase j))
      (fun _ h => h) (fun _ => ?_) j hlive)
    rw [hphase]
    trivial

/-- After a move the candidates of the room are published. -/
theorem Inv.candidates_move (hinv : G.Inv w) (h : G.Move w w') (k v : List UInt8)
    (hk : candidateTag G.code <+: k) (hv : w'.st.roomCandidates.lookup k = some v) :
    ∃ j q port seq, (j, q, port) ∈ w'.published ∧ k = memberCandidateKey G.code (G.id j) seq ∧
      v = meshText q port := by
  have hold : w.st.roomCandidates.lookup k = some v → ∃ j q port seq, (j, q, port) ∈ w'.published ∧
      k = memberCandidateKey G.code (G.id j) seq ∧ v = meshText q port := by
    intro hv
    obtain ⟨j, q, port, seq, hpub, hrest⟩ := hinv.candidates k v hk hv
    exact ⟨j, q, port, seq, h.extends.1 _ hpub, hrest⟩
  cases h with
  | poll hst | fail hst => exact hold (by rw [← hst.2]; exact hv)
  | join hphase hmembers hcandidates => exact hold (by rw [← hcandidates]; exact hv)
  -- Only binding a socket publishes a candidate, under the next sequence number.
  | @bind i sockets p rest port hphase hport =>
    change AList.lookup k (w.st.roomCandidates.insert
      (memberCandidateKey G.code (G.id i) w.st.candSeq) (meshText p.id port)) = some v at hv
    by_cases hkey : k = memberCandidateKey G.code (G.id i) w.st.candSeq
    · rw [hkey, AList.lookup_insert] at hv
      exact ⟨i, p.id, port, w.st.candSeq, by simp [advance], hkey, (Option.some.inj hv).symm⟩
    · rw [AList.lookup_insert_ne hkey] at hv
      exact hold hv
  | _ => exact hold hv

/-- When a node goes on to a phase that is all right if the one before was, all phases are. -/
theorem phaseOk_advance (hold : ∀ j, G.PhaseOk w' j (w.phase j)) {k : ι} {phase phase' : NodePhase}
    (hphase : w.phase k = phase) (hnew : G.PhaseOk w' k phase → G.PhaseOk w' k phase') (j : ι) :
    G.PhaseOk w' j ((advance w k phase').phase j) := by
  refine forall_advance (P := G.PhaseOk w') hold (hnew ?_) j
  rw [← hphase]
  exact hold k

/-- A move keeps what holds of the phases. -/
theorem Inv.phases_move (hinv : G.Inv w) (hG : G.Unambiguous) (h : G.Move w w') (j : ι) :
    G.PhaseOk w' j (w'.phase j) := by
  -- What holds of a phase goes on to hold as the room only grows.
  have hold := fun j => (hinv.phases j).mono h.extends
  cases h with
  | poll | receive => exact hold j
  | fail =>
    refine phaseOk_advance hold rfl ?_ j
    exact fun _ => trivial
  | join hphase hmembers hcandidates =>
    refine phaseOk_advance hold hphase ?_ j
    exact fun _ => trivial
  | snapshot hphase =>
    refine phaseOk_advance hold hphase ?_ j
    exact fun _ => ⟨by simp, fun p hp => known_of_mem_sortedPeers hinv hp⟩
  | @bind i sockets p rest port hphase hport =>
    refine phaseOk_advance hold hphase ?_ j
    rintro ⟨hsockets, hpeers⟩
    obtain ⟨hp, hrest⟩ := List.forall_mem_cons.mp hpeers
    refine ⟨fun x hx => ?_, hrest⟩
    rcases List.mem_append.mp hx with hx | hx
    · exact hsockets x hx
    · obtain rfl := List.mem_singleton.mp hx
      exact ⟨hp, by simp [advance]⟩
  | published hphase =>
    refine phaseOk_advance hold hphase ?_ j
    exact fun hi => ⟨by simp, hi.1⟩
  | @resolve i pairs x rest addr peerPub hphase hkey haddr =>
    refine phaseOk_advance hold hphase ?_ j
    rintro ⟨hpairs, hsockets⟩
    obtain ⟨hx, hrest⟩ := List.forall_mem_cons.mp hsockets
    refine ⟨fun y hy => ?_, hrest⟩
    rcases List.mem_append.mp hy with hy | hy
    · exact hpairs y hy
    · obtain rfl := List.mem_singleton.mp hy
      obtain ⟨peer, -, hid, hpub⟩ := hx.1
      rw [hid] at haddr
      obtain ⟨port, hport, rfl⟩ := meshCandidate_eq hinv hG haddr
      rw [hpub, decodeKey_encodeKey] at hkey
      exact ⟨hx, peer, port, hid, (Option.some.inj hkey).symm, hport, rfl⟩
  | launch hphase =>
    refine phaseOk_advance hold hphase ?_ j
    exact fun hi => hi.1
  | finish hphase hjoin =>
    refine phaseOk_advance hold hphase ?_ j
    intro hpairs q hq
    obtain ⟨x, hx, hxq⟩ := (mem_of_mapM_eq_ok hjoin).2 q ((List.mem_insertionSort _).mp hq)
    exact (peerOk_of_join (hpairs x hx) hxq).2
  | close hphase =>
    refine phaseOk_advance hold hphase ?_ j
    exact fun hi => hi

/-- When a node goes on to a phase that says as much about its published sockets, the sockets are
those of the phases. -/
theorem Inv.covers_advance (hinv : G.Inv w) {k : ι} {phase phase' : NodePhase}
    (hphase : w.phase k = phase) {i : ι} {q : List UInt8} {port : UInt16}
    (hnew : Covers phase q port → Covers phase' q port) (hpub : (i, q, port) ∈ w.published) :
    Covers ((advance w k phase').phase i) q port := by
  refine forall_advance (P := fun j phase => (j, q, port) ∈ w.published → Covers phase q port)
    (fun j => hinv.covers j q port) (fun hk => hnew ?_) i hpub
  rw [← hphase]
  exact hinv.covers k q port hk

/-- What was published is still covered. -/
theorem Inv.covers_move (hinv : G.Inv w) (h : G.Move w w') (i : ι) (q : List UInt8)
    (port : UInt16) (hpub : (i, q, port) ∈ w'.published) : Covers (w'.phase i) q port := by
  cases h with
  | poll | receive => exact hinv.covers i q port hpub
  | fail => exact hinv.covers_advance rfl (fun _ => trivial) hpub
  | join hphase hmembers hcandidates => exact hinv.covers_advance hphase (fun h => h) hpub
  | snapshot hphase => exact hinv.covers_advance hphase False.elim hpub
  -- The new socket covers the candidate that is published for it.
  | @bind k sockets p rest port' hphase hport =>
    rcases List.mem_append.mp hpub with hpub | hpub
    · refine hinv.covers_advance hphase ?_ hpub
      rintro ⟨x, hx, hrest⟩
      exact ⟨x, List.mem_append_left _ hx, hrest⟩
    · obtain ⟨rfl, rfl, rfl⟩ : i = k ∧ q = p.id ∧ port = port' := by simpa using hpub
      have hcov : Covers (.publishing (sockets ++ [⟨p, port⟩]) rest) p.id port :=
        ⟨⟨p, port⟩, by simp, rfl, rfl⟩
      simpa [advance] using hcov
  | published hphase =>
    refine hinv.covers_advance hphase ?_ hpub
    rintro ⟨x, hx, rfl, -⟩
    exact List.mem_map.mpr ⟨x, hx, rfl⟩
  | resolve hphase hkey haddr =>
    exact hinv.covers_advance hphase (by simp [Covers]) hpub
  | launch hphase => exact hinv.covers_advance hphase (by simp [Covers]) hpub
  -- Each socket of the pairs has become a session of the mesh.
  | @finish k pairs peers hphase hjoin =>
    have hpairs := hinv.phases k
    rw [hphase] at hpairs
    exact hinv.covers_advance hphase (mem_peers_of_finish hpairs hjoin) hpub
  | close hphase => exact hinv.covers_advance hphase (fun h => h) hpub

/-- A port was published for one peer only. -/
theorem Inv.ports_move (hinv : G.Inv w) (h : G.Move w w') (i : ι) (q q' : List UInt8)
    (port : UInt16) (hq : (i, q, port) ∈ w'.published) (hq' : (i, q', port) ∈ w'.published) :
    q = q' := by
  cases h with
  | @bind k sockets p rest port' hphase hport =>
    -- the new port is none of the node's open sockets
    have hfresh : ∀ q, (k, q, port') ∉ w.published := by
      intro q hq
      have hcov := hinv.covers k q port' hq
      rw [hphase] at hcov
      obtain ⟨x, hx, -, hx'⟩ := hcov
      exact hport (List.mem_map.mpr ⟨x, hx, hx'⟩)
    simp only [advance, List.mem_append, List.mem_singleton, Prod.mk.injEq] at hq hq'
    rcases hq with hq | ⟨hi, hid, hnew⟩ <;> rcases hq' with hq' | ⟨hi', hid', hnew'⟩
    · exact hinv.ports i q q' port hq hq'
    · rw [hi', hnew'] at hq
      exact absurd hq (hfresh q)
    · rw [hi, hnew] at hq'
      exact absurd hq' (hfresh q')
    · rw [hid, hid']
  | _ => exact hinv.ports i q q' port hq hq'

/-- A move keeps what holds of the packets. -/
theorem Inv.packets_move (hinv : G.Inv w) (h : G.Move w w') (p : Packet) (hp : p ∈ w'.packets) :
    G.PacketOk w' p := by
  have hext := h.extends
  cases h with
  -- Only the side with the smaller id sends a message 1.
  | @launch i pairs hphase =>
    rcases List.mem_append.mp hp with hp | hp
    · exact (hinv.packets p hp).mono hext
    · obtain ⟨x, hx, hopen⟩ := List.mem_filterMap.mp hp
      obtain ⟨hlt, rfl⟩ := Option.ite_none_right_eq_some.mp hopen |>.imp_right Option.some.inj
      have hpairs := hinv.phases i
      rw [hphase] at hpairs
      obtain ⟨⟨-, hown⟩, j, port, hid, hkey, hpub, haddr⟩ := hpairs.1 x hx
      rw [hid] at hlt hown
      refine .inr ⟨i, j, port, x.port, hlt, hpub, hown, ?_, ?_⟩
      · rw [haddr]
        rfl
      · rw [hid, hkey]
  -- A reply is a message 2, told by its length.
  | @receive i pairs x p' hphase hx hfirst hp' hport =>
    rcases List.mem_append.mp hp with hp | hp
    · exact (hinv.packets p hp).mono hext
    · unfold reply at hp
      split at hp
      · cases hp
      · split at hp
        · cases hp
        · rw [List.mem_singleton.mp hp]
          exact .inl (Exchange.length_sendMessage2 _ _)
  | _ => exact (hinv.packets p hp).mono hext

/-- The first datagram from a peer was sent to a published port. -/
theorem Inv.first_move (hinv : G.Inv w) (h : G.Move w w') (i : ι) (q : List UInt8) (d : Datagram)
    (hd : w'.first i q = some d) : ∃ port, (i, q, port) ∈ w'.published ∧
      ∃ p ∈ w'.packets, p.datagram = d ∧ p.dest.port = port.toNat := by
  have hext := h.extends
  have hold : w.first i q = some d → ∃ port, (i, q, port) ∈ w'.published ∧
      ∃ p ∈ w'.packets, p.datagram = d ∧ p.dest.port = port.toNat := by
    intro hd
    obtain ⟨port, hpub, p, hp, hrest⟩ := hinv.first i q d hd
    exact ⟨port, hext.1 _ hpub, p, hext.2.1 p hp, hrest⟩
  cases h with
  -- The first datagram of a socket is fixed when it comes.
  | @receive k pairs x p hphase hx hfirst hp hport =>
    by_cases hk : i = k ∧ q = x.peer.id
    · obtain ⟨rfl, rfl⟩ := hk
      have hpairs := hinv.phases i
      rw [hphase] at hpairs
      have hdatagram : p.datagram = d := by simpa using hd
      exact ⟨x.port, (hpairs x hx).1.2, p, List.mem_append_left _ hp, hdatagram, hport⟩
    · refine hold ?_
      by_cases hi : i = k
      · subst hi
        have hq : q ≠ x.peer.id := fun h => hk ⟨rfl, h⟩
        simpa [hq] using hd
      · simpa [hi] using hd
  | _ => exact hold hd

/-- A move keeps what a node listed. -/
theorem Inv.listed_move (hinv : G.Inv w) (h : G.Move w w') (i : ι) :
    G.KeepsListed w i (w'.phase i) := by
  have hold : ∀ j, G.KeepsListed w j (w.phase j) := fun j l hl =>
    ⟨live_of_listed hl, .inl ⟨l, hl, List.Subset.refl l⟩⟩
  cases h with
  | poll | receive => exact hold i
  | fail | join =>
    refine forall_advance (P := G.KeepsListed w) hold ?_ i
    intro l hl
    cases hl
  -- The snapshot holds everyone who is live by now.
  | @snapshot k hphase =>
    refine forall_advance (P := G.KeepsListed w) hold ?_ i
    intro l hl
    obtain rfl := Option.some.inj hl
    refine ⟨by rw [hphase]; trivial, .inr fun j hj hlive => ?_⟩
    exact mem_sortedPeers_of_live hinv hj hlive
  -- The later phases carry on the list of the snapshot.
  | bind hphase | published hphase | resolve hphase | launch hphase | close hphase =>
    refine forall_advance (P := G.KeepsListed w) hold (keepsListed_of_subset hphase rfl ?_) i
    rintro l' hl'
    obtain rfl := Option.some.inj hl'
    simp
  | @finish k pairs peers hphase hjoin =>
    have hpairs := hinv.phases k
    rw [hphase] at hpairs
    refine forall_advance (P := G.KeepsListed w) hold (keepsListed_of_subset hphase rfl ?_) i
    rintro l' hl' q hq
    obtain rfl := Option.some.inj hl'
    exact mem_peers_of_finish hpairs hjoin hq

/-- Of two nodes one has listed the other. -/
theorem Inv.snapshots_move (hinv : G.Inv w) (h : G.Move w w') (i j : ι) (hij : i ≠ j)
    (l l' : List (List UInt8)) (hl : (w'.phase i).listed? = some l)
    (hl' : (w'.phase j).listed? = some l') : G.id j ∈ l ∨ G.id i ∈ l' := by
  obtain ⟨hlive, hi⟩ := hinv.listed_move h i l hl
  obtain ⟨hlive', hj⟩ := hinv.listed_move h j l' hl'
  -- a node with a new snapshot lists the other one
  rcases hi with ⟨m, hm, hsub⟩ | hnew
  · rcases hj with ⟨m', hm', hsub'⟩ | hnew'
    · exact (hinv.snapshots i j hij m m' hm hm').imp (fun h => hsub h) (fun h => hsub' h)
    · exact .inr (hnew' i hij hlive)
  · exact .inl (hnew j hij.symm hlive')

/-- A move keeps the invariant. -/
theorem Inv.move (hinv : G.Inv w) (hG : G.Unambiguous) (h : G.Move w w') : G.Inv w' where
  members := hinv.members_move h
  joined := hinv.joined_move h
  candidates := hinv.candidates_move h
  phases := hinv.phases_move hG h
  covers := hinv.covers_move h
  ports := hinv.ports_move h
  packets := hinv.packets_move h
  first := hinv.first_move h
  snapshots := hinv.snapshots_move h

end Moves

/-- The invariant holds in a room that nobody has joined. -/
theorem Inv.start {st : RoomStore} (hst : G.Vacant st) : G.Inv (MeshGroup.start st) where
  members pid key hkey := by
    have hmem : ⟨memberKey G.code pid, key⟩ ∈ scanPrefix st.roomMembers (candidateTag G.code) :=
      mem_scanPrefix.mpr ⟨List.prefix_append _ _, hkey⟩
    rw [hst.1] at hmem
    cases hmem
  joined i hlive := hlive.elim
  candidates k v hk hv := by
    have hmem := mem_scanPrefix.mpr ⟨hk, hv⟩
    rw [show scanPrefix (MeshGroup.start st).st.roomCandidates _ = _ from hst.2] at hmem
    cases hmem
  phases i := trivial
  covers i q port hpub := by cases hpub
  ports i q q' port hpub := by cases hpub
  packets p hp := by cases hp
  first i q d hd := by cases hd
  snapshots i j hij l l' hl := by cases hl

/-- The invariant holds in every run of a group whose ids do not continue each other. -/
theorem Inv.run [DecidableEq ι] [Fintype ι] (hG : G.Unambiguous) {st : RoomStore}
    (hst : G.Vacant st) (es : List (MeshEvent ι)) : G.Inv (run G.step (MeshGroup.start st) es) := by
  refine run_induction (fun w e hinv => ?_) es (Inv.start hst)
  rcases move_step w e with h | h
  · rwa [h]
  · exact hinv.move hG h

/-! ## Agreement -/

section Agreement

variable {w : MeshWorld ι} {i j : ι}

/-- What arrived as a message 1 is the first datagram of a thread of the node with the larger id. -/
theorem arrived1_eq_some {d : List UInt8} :
    (G.exchange w).arrived1 (j, i) = some d ↔
      ¬ G.id j < G.id i ∧ ∃ g, w.first j (G.id i) = some g ∧ g.received msg1Len = d := by
  simp only [exchange, Option.ite_none_left_eq_some, Option.map_eq_some_iff]

/-- What arrived as a message 2 is the first datagram of a thread of the node with the smaller
id. -/
theorem arrived2_of_first {d : Datagram} (hrole : G.id i < G.id j)
    (hd : w.first i (G.id j) = some d) :
    (G.exchange w).arrived2 (i, j) = some (d.received msg2Len) := by
  simp [exchange, hrole, hd]

/-- A message 1 that a thread accepts is that of the thread's peer for the node, which has published
a socket for the node. -/
theorem Inv.accepted (hinv : G.Inv w) (hideal : (G.exchange w).Ideal) {d : List UInt8}
    {resp : NoiseIkResponder} (hd : (G.exchange w).arrived1 (j, i) = some d)
    (hok : (G.exchange w).responder (j, i) d = .ok resp) :
    (G.exchange w).Sent (i, j) ∧ d = ((G.exchange w).initiator (i, j)).2 ∧
      ∃ port, (i, G.id j, port) ∈ w.published := by
  obtain ⟨hrole, g, hg, rfl⟩ := arrived1_eq_some.mp hd
  obtain ⟨hlen, -⟩ := NoiseIkResponder.receiveMessage1_eq_ok.mp hok
  obtain ⟨port, hpub, p, hp, rfl, hport⟩ := hinv.first j (G.id i) g hg
  rcases hinv.packets p hp with hshort | ⟨n, m, port₁, port₂, hlt, hpub₁, hpub₂, hport₁, hpayload⟩
  · -- a message 2 is too short
    simp [Datagram.received, hshort, msg1Len, msg2Len] at hlen
  · have hsent : (G.exchange w).Sent (n, m) := ⟨hlt, p, hp, hpayload⟩
    have hreceived : p.datagram.received msg1Len = ((G.exchange w).initiator (n, m)).2 := by
      unfold Datagram.received
      rw [hpayload]
      exact List.take_of_length_le (length_new _ _ _ _).le
    rw [hreceived] at hok hd
    -- it was built for the node, and the node publishes the port for one peer
    obtain rfl : m = j := G.key_injective (hideal.target_eq hsent hd hok)
    obtain rfl : port₁ = port := UInt16.toNat_inj.mp (hport₁.symm.trans hport)
    obtain rfl : n = i := G.id_injective (hinv.ports m _ _ _ hpub₁ hpub)
    exact ⟨hsent, hreceived, port₂, hpub₂⟩

/-- The first datagram of a thread whose session was accepted. -/
theorem Inv.accept_session (hinv : G.Inv w) (hideal : (G.exchange w).Ideal) {d : Datagram}
    {s : SecureSession} (hrole : ¬ G.id j < G.id i) (hd : w.first j (G.id i) = some d)
    (hs : G.session j (G.id i) (G.pubkey i) (some d) = .ok s) :
    ∃ resp, (G.exchange w).Sent (i, j) ∧ (∃ port, (i, G.id j, port) ∈ w.published) ∧
      (G.exchange w).responder (j, i) ((G.exchange w).initiator (i, j)).2 = .ok resp ∧
      s = .fromHandshake d.source (resp.sendMessage2 S (G.eSecret j (G.id i))).1 := by
  unfold session at hs
  rw [if_neg hrole] at hs
  obtain ⟨resp, hok, hs⟩ := SecureSession.accept_eq_ok.mp hs
  obtain ⟨hsent, hreceived, hpub⟩ :=
    hinv.accepted hideal (arrived1_eq_some.mpr ⟨hrole, d, hd, rfl⟩) hok
  rw [hreceived] at hok
  exact ⟨resp, hsent, hpub, hok, hs⟩

/-- A thread whose session was connected was answered by the peer's thread for the node, which had
read its message 1. -/
theorem Inv.connect_session (hinv : G.Inv w) (hideal : (G.exchange w).Ideal) {d : Datagram}
    {s : SecureSession} (hrole : G.id i < G.id j) (hd : w.first i (G.id j) = some d)
    (hs : G.session i (G.id j) (G.pubkey j) (some d) = .ok s) :
    ∃ g resp res, w.first j (G.id i) = some g ∧ ¬ G.id j < G.id i ∧
      (G.exchange w).responder (j, i) (g.received msg1Len) = .ok resp ∧
      g.received msg1Len = ((G.exchange w).initiator (i, j)).2 ∧
      ((G.exchange w).initiator (i, j)).1.receiveMessage2 (G.staticKey i)
        (resp.sendMessage2 S (G.eSecret j (G.id i))).2 = .ok res ∧
      s = .fromHandshake d.source res := by
  unfold session at hs
  rw [if_pos hrole] at hs
  obtain ⟨res, hok, hs⟩ := SecureSession.connect_eq_ok.mp hs
  obtain ⟨⟨m, q⟩, resp, harrived, hresp, hanswer⟩ :=
    hideal.answered (arrived2_of_first hrole hd) hok
  -- the thread that answered has accepted the message 1 of its own peer, which is this one
  obtain ⟨hsent, heq, -⟩ := hinv.accepted hideal harrived hresp
  obtain ⟨p, hp, hpayload⟩ := hsent.2
  have hsame : (i, j) = (q, m) :=
    hideal.initiator_inj ⟨hrole, p, hp, hpayload.trans heq.symm⟩ hsent heq
  obtain ⟨rfl, rfl⟩ := Prod.mk.inj hsame
  obtain ⟨hresponds, g, hg, hreceived⟩ := arrived1_eq_some.mp harrived
  rw [hanswer] at hok
  rw [← hreceived] at hresp
  exact ⟨g, resp, res, hg, hresponds, hresp, hreceived, hok, hs⟩

/-- What a peer of a returned mesh is known to be. -/
theorem Inv.peer (hinv : G.Inv w) {m : MeshSession} (hm : (w.phase i).mesh? = some m)
    {q : MeshPeer} (hq : q ∈ m.peers) (hid : q.id = G.id j) :
    ∃ d, w.first i (G.id j) = some d ∧
      G.session i (G.id j) (G.pubkey j) (some d) = .ok q.session := by
  have hphase := hinv.phases i
  cases hi : w.phase i with
  | returned mesh ports =>
    rw [hi] at hm hphase
    obtain rfl := Option.some.inj hm
    obtain ⟨k, d, -, hk, hd, hs⟩ := hphase q hq
    obtain rfl : k = j := G.id_injective (hk.symm.trans hid)
    exact ⟨d, hd, hs⟩
  | _ =>
    rw [hi] at hm
    cases hm

/-- A node that has returned lists every peer that it published a socket for. -/
theorem Inv.lists_published (hinv : G.Inv w) {m : MeshSession} (hm : (w.phase i).mesh? = some m)
    {pid : List UInt8} {port : UInt16} (hpub : (i, pid, port) ∈ w.published) :
    ∃ q ∈ m.peers, q.id = pid := by
  have hcov := hinv.covers i pid port hpub
  cases hi : w.phase i with
  | returned mesh ports =>
    rw [hi] at hm hcov
    obtain rfl := Option.some.inj hm
    exact List.mem_map.mp hcov
  | _ =>
    rw [hi] at hm
    cases hm

/-- Of two nodes that have returned, one that is listed lists the other. -/
theorem Inv.lists_symm (hinv : G.Inv w) (hideal : (G.exchange w).Ideal) {m m' : MeshSession}
    (hm : (w.phase i).mesh? = some m) (hm' : (w.phase j).mesh? = some m') {q : MeshPeer}
    (hq : q ∈ m.peers) (hid : q.id = G.id j) : ∃ q ∈ m'.peers, q.id = G.id i := by
  obtain ⟨d, hd, hs⟩ := hinv.peer hm hq hid
  by_cases hrole : G.id i < G.id j
  · obtain ⟨g, -, -, hg, -⟩ := hinv.connect_session hideal hrole hd hs
    obtain ⟨port, hpub, -⟩ := hinv.first j (G.id i) g hg
    exact hinv.lists_published hm' hpub
  · obtain ⟨-, -, ⟨port, hpub⟩, -⟩ := hinv.accept_session hideal hrole hd hs
    exact hinv.lists_published hm' hpub

/-- The two sessions of a pair whose first node has the smaller id. -/
theorem Inv.sessions_agree (hinv : G.Inv w) (hideal : (G.exchange w).Ideal) {m m' : MeshSession}
    (hm : (w.phase i).mesh? = some m) (hm' : (w.phase j).mesh? = some m') {q q' : MeshPeer}
    (hq : q ∈ m.peers) (hid : q.id = G.id j) (hq' : q' ∈ m'.peers) (hid' : q'.id = G.id i)
    (hrole : G.id i < G.id j) :
    q.session.isInitiator = true ∧ q'.session.isInitiator = false ∧
      q.session.send.key = q'.session.recv.key ∧ q.session.recv.key = q'.session.send.key := by
  obtain ⟨d, hd, hs⟩ := hinv.peer hm hq hid
  obtain ⟨d', hd', hs'⟩ := hinv.peer hm' hq' hid'
  -- The message 2 that the initiator took was made by the responder for its message 1.
  obtain ⟨g, resp, res, hg, hresponds, hresp, hreceived, hok, hsession⟩ :=
    hinv.connect_session hideal hrole hd hs
  obtain rfl : d' = g := Option.some.inj (hd'.symm.trans hg)
  obtain ⟨resp', -, -, hresp', hsession'⟩ := hinv.accept_session hideal hresponds hd' hs'
  rw [hreceived] at hresp
  obtain rfl : resp = resp' := Except.ok.inj (hresp.symm.trans hresp')
  -- One completed exchange gives both ends the same keys.
  have hagree : res.trafficKeys =
      (resp.sendMessage2 S (G.eSecret j (G.id i))).1.trafficKeys ∧ res.isInitiator = true ∧
        (resp.sendMessage2 S (G.eSecret j (G.id i))).1.isInitiator = false :=
    Exchange.keys_agree (X := G.exchange w) (k := (i, j)) (r := (j, i)) rfl hresp hok
  obtain ⟨hkeys, hinit, hinit'⟩ := hagree
  rw [hsession, hsession']
  simp [SecureSession.fromHandshake, DatagramCipher.new, TrafficKeys.sendKey, TrafficKeys.recvKey,
    hkeys, hinit, hinit']

/-- With ideal primitives, the nodes that have returned agree. -/
theorem Inv.agree (hinv : G.Inv w) (hideal : (G.exchange w).Ideal) : G.Agree w := by
  intro i j hij m m' hm hm'
  -- Of two members one lists the other: the later snapshot holds the earlier member.
  have hlisted : (∃ q ∈ m.peers, q.id = G.id j) ∨ ∃ q ∈ m'.peers, q.id = G.id i := by
    have hl : ∀ {i m}, (w.phase i).mesh? = some m →
        (w.phase i).listed? = some (m.peers.map MeshPeer.id) := by
      intro i m hm
      cases hi : w.phase i <;> rw [hi] at hm <;> cases hm
      rfl
    exact (hinv.snapshots i j hij _ _ (hl hm) (hl hm')).imp List.mem_map.mp List.mem_map.mp
  -- And what one lists the other lists too, once both have finished.
  have hboth : (∃ q ∈ m.peers, q.id = G.id j) ∧ ∃ q ∈ m'.peers, q.id = G.id i := by
    rcases hlisted with ⟨q, hq, hid⟩ | ⟨q, hq, hid⟩
    · exact ⟨⟨q, hq, hid⟩, hinv.lists_symm hideal hm hm' hq hid⟩
    · exact ⟨hinv.lists_symm hideal hm' hm hq hid, q, hq, hid⟩
  refine ⟨hboth.1, hboth.2, fun q hq hid q' hq' hid' => ?_⟩
  by_cases hrole : G.id i < G.id j
  · obtain ⟨hinit, hinit', hkeys⟩ := hinv.sessions_agree hideal hm hm' hq hid hq' hid' hrole
    exact ⟨by rw [hinit, hinit']; rfl, hkeys⟩
  · -- this node has accepted a message 1 of the other one, whose id is smaller
    obtain ⟨d, hd, hs⟩ := hinv.peer hm hq hid
    obtain ⟨-, hsent, -⟩ := hinv.accept_session hideal hrole hd hs
    obtain ⟨hinit', hinit, hsend, hrecv⟩ :=
      hinv.sessions_agree hideal hm' hm hq' hid' hq hid hsent.1
    exact ⟨by rw [hinit, hinit']; rfl, hrecv.symm, hsend.symm⟩

end Agreement

/-- In every run of a group in which no id continues another one behind a colon, in a new room and
with ideal primitives: any two nodes that have returned list each other, exactly one of the two was
the initiator, and their two sessions hold the same traffic keys in opposite directions. -/
theorem agree_of_unambiguous [DecidableEq ι] [Fintype ι] (G : MeshGroup S ι) (hG : G.Unambiguous)
    (st : RoomStore) (hst : G.Vacant st) (es : List (MeshEvent ι))
    (hideal : (G.exchange (run G.step (start st) es)).Ideal) :
    G.Agree (run G.step (start st) es) :=
  (Inv.run hG hst es).agree hideal

/-! ### Runs that can be evaluated -/

/-- Whether a message was sent can be decided. -/
instance [DecidableEq ι] (w : MeshWorld ι) : DecidablePred (G.exchange w).Sent := fun _ =>
  inferInstanceAs (Decidable (_ ∧ ∃ p ∈ w.packets, _))

/-- A room of a new server. -/
def sampleRoom : RoomStore := (RoomStore.empty.postRoom 0).2

/-- Four nodes on one machine with keys of their own. -/
def sampleGroup (groupSize : ℕ) (id : Fin 4 → List UInt8) (hid : Function.Injective id) :
    MeshGroup sampleSuite (Fin 4) where
  code := formatCode codeSeqStart
  groupSize := groupSize
  id := id
  staticKey i := sampleKeypair (.ofNat (3 + 2 * i))
  host _ := 0
  eSecret i pid := Bytes.fill 32 (.ofNat (32 * i + (pid.headD 0).toNat))
  id_injective := hid
  key_injective := by decide +kernel

/-- The group `a`, `b`, `c` and `d`, for meshes of two. -/
def plainGroup : MeshGroup sampleSuite (Fin 4) :=
  sampleGroup 2 (fun i => [[97], [98], [99], [100]].get i) (by decide)

/-- The run in which `a` and `b` join, bind a socket for each other, resolve each other and shake
hands. -/
def meshOfTwo : List (MeshEvent (Fin 4)) :=
  [.request 0 0, .request 1 0, .request 0 0, .request 1 0, .bind 0 0 6001, .bind 1 0 7001,
    .request 0 0, .request 0 0, .request 0 0, .request 1 0, .request 1 0, .request 1 0,
    .receive 1 [97] 0, .receive 0 [98] 1, .finish 0, .finish 1]

/-- The mesh of two is established, and the two agree. -/
theorem agree_meshOfTwo :
    ((run plainGroup.step (start sampleRoom) meshOfTwo).phase 0).mesh? ≠ none ∧
      ((run plainGroup.step (start sampleRoom) meshOfTwo).phase 1).mesh? ≠ none ∧
      plainGroup.Agree (run plainGroup.step (start sampleRoom) meshOfTwo) := by
  have hrun : ((run plainGroup.step (start sampleRoom) meshOfTwo).phase 0).mesh?.isSome ∧
      ((run plainGroup.step (start sampleRoom) meshOfTwo).phase 1).mesh?.isSome ∧
      (plainGroup.exchange (run plainGroup.step (start sampleRoom) meshOfTwo)).Checked
        [(0, 1)] := by decide +kernel
  have hplain : plainGroup.Unambiguous := by unfold Unambiguous; decide +kernel
  have hroom : plainGroup.Vacant sampleRoom := by constructor <;> decide +kernel
  exact ⟨Option.ne_none_iff_isSome.mpr hrun.1, Option.ne_none_iff_isSome.mpr hrun.2.1,
    agree_of_unambiguous plainGroup hplain sampleRoom hroom meshOfTwo hrun.2.2.ideal⟩

/-- Two nodes have returned sessions to each other of which one sends under another key than that
with which the other one receives. -/
def KeysDiffer (G : MeshGroup S ι) (w : MeshWorld ι) (i j : ι) : Prop :=
  ∃ m ∈ (w.phase i).mesh?, ∃ m' ∈ (w.phase j).mesh?, ∃ q ∈ m.peers, q.id = G.id j ∧
    ∃ q' ∈ m'.peers, q'.id = G.id i ∧ q.session.send.key ≠ q'.session.recv.key

/-- Whether the keys of two nodes differ can be decided. -/
instance (w : MeshWorld ι) (i j : ι) : Decidable (G.KeysDiffer w i j) :=
  inferInstanceAs (Decidable (∃ m ∈ (w.phase i).mesh?, ∃ m' ∈ (w.phase j).mesh?, ∃ q ∈ m.peers,
    q.id = G.id j ∧ ∃ q' ∈ m'.peers, q'.id = G.id i ∧
      q.session.send.key ≠ q'.session.recv.key))

/-- Nodes whose keys differ do not agree. -/
theorem KeysDiffer.not_agree {w : MeshWorld ι} {i j : ι} (h : G.KeysDiffer w i j) (hij : i ≠ j) :
    ¬ G.Agree w := by
  obtain ⟨m, hm, m', hm', q, hq, hid, q', hq', hid', hne⟩ := h
  intro hagree
  exact hne ((hagree i j hij m m' hm hm').2.2 q hq hid q' hq' hid').2.1

/-- The group `a`, `b`, `c` and `c:d`, for meshes of three. -/
def continuedGroup : MeshGroup sampleSuite (Fin 4) :=
  sampleGroup 3 (fun i => [[97], [98], [99], [99, 58, 100]].get i) (by decide)

/-- The run in which `a`, `b` and `c` take their snapshots before `c:d` joins. It binds a socket for
each of them, which `a` and `b` find in the roster under the id `c`, and runs into its deadline. The
sockets of `c` for `b` and for `a` get the ports that it had for `a` and for `b`, so the messages 1
of `a` and of `b` are read there. -/
def swappedSockets : List (MeshEvent (Fin 4)) :=
  [.request 0 0, .request 1 0, .request 2 0, .request 0 0, .request 1 0, .request 2 0,
    -- `c:d` joins, publishes and waits for an address of `a`
    .request 3 0, .request 3 0, .bind 3 0 5001, .bind 3 0 5002, .bind 3 0 5003, .request 3 0,
    -- `a` and `b` publish and resolve their peers
    .bind 0 0 6001, .bind 0 0 6002, .bind 1 0 7001, .bind 1 0 7002,
    .request 0 0, .request 0 0, .request 0 0, .request 1 0, .request 1 0, .request 1 0,
    -- the ports of `c:d` are free for `c`
    .request 3 0, .fail 3, .bind 2 0 5002, .bind 2 0 5001, .request 2 0, .request 2 0, .request 2 0,
    -- all three start their handshakes
    .request 0 0, .request 1 0, .request 2 0,
    .receive 1 [97] 0, .receive 0 [98] 3, .receive 2 [98] 1, .receive 2 [97] 2,
    .receive 0 [99] 4, .receive 1 [99] 5, .finish 0, .finish 1, .finish 2]

/-- In a room with the ids `c` and `c:d`, the nodes `a` and `c` return sessions to each other under
different keys. -/
theorem not_agree_continued_id :
    ¬ ∀ (S : Suite) (ι : Type) (_ : DecidableEq ι) (_ : Fintype ι) (G : MeshGroup S ι)
      (st : RoomStore) (es : List (MeshEvent ι)), G.Vacant st →
        (G.exchange (run G.step (start st) es)).Ideal → G.Agree (run G.step (start st) es) := by
  have hrun : (continuedGroup.exchange
        (run continuedGroup.step (start sampleRoom) swappedSockets)).Checked
          [(0, 1), (0, 2), (1, 2)] ∧
      continuedGroup.KeysDiffer (run continuedGroup.step (start sampleRoom) swappedSockets) 0 2 :=
    by decide +kernel
  have hroom : continuedGroup.Vacant sampleRoom := by constructor <;> decide +kernel
  intro h
  exact hrun.2.not_agree (by decide)
    (h sampleSuite (Fin 4) _ _ continuedGroup sampleRoom swappedSockets hroom hrun.1.ideal)

end MeshGroup

end LowBand.Lowbandd
