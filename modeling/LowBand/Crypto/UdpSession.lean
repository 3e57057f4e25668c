import LowBand.Crypto.RelayGuard
import LowBand.Lib.Run
import Mathlib.Data.List.Nodup

/-!
# Secure sessions over UDP

`udp_session.rs` runs the handshake over a socket and then seals and opens datagrams with one
cipher a direction. `connect`, `accept`, `send` and `recv` are modelled with the datagram that the
socket yields as an argument, cut to the size of the buffer it is read into.

A `Net` is the two sessions of a handshake with a network between them that hands either side
whatever it likes. Its history says what each side sealed, what reached it, and what its `recv`
returned. With an ideal cipher everything returned was sealed by the other side. `recv` keeps no
state, so a datagram is returned as often as it arrives: `Inv.atMostOnce_step` says that a step
keeps `AtMostOnce` exactly if it is no replay, and `run_iff_guarded` carries this to runs.
-/

namespace LowBand.Crypto

open Lib

/-- `SocketAddr`. -/
structure SocketAddr where
  /-- The bytes of the IP address. -/
  ip : List UInt8
  /-- The port. -/
  port : ℕ
deriving DecidableEq

/-- `SessionError`; `io` stands for every socket error, a read timeout included. -/
inductive SessionError where
  | io
  | handshake (e : HandshakeError)
  | authFailed
deriving DecidableEq

/-- A datagram that reached a socket, with its sender's address. -/
structure Datagram where
  /-- The address it came from. -/
  source : SocketAddr
  /-- Its payload. -/
  payload : List UInt8
deriving DecidableEq

/-- What `recv_from` puts into a buffer of `n` bytes; the excess of a datagram is discarded. -/
def Datagram.received (d : Datagram) (n : ℕ) : List UInt8 := d.payload.take n

/-- `SecureSession`, without its socket. -/
structure SecureSession where
  /-- The address that datagrams are sent to. -/
  peer : SocketAddr
  /-- The cipher of the outgoing direction. -/
  send : DatagramCipher
  /-- The cipher of the incoming direction. -/
  recv : DatagramCipher
  /-- Whether this side was the initiator of the handshake. -/
  isInitiator : Bool
  /-- The transcript hash of the handshake. -/
  transcriptHash : Bytes 32
  /-- The static key of the other side, as the handshake reported it. -/
  remoteStaticPubkey : Bytes 32
deriving DecidableEq

namespace SecureSession

/-- The session of a completed handshake. -/
def fromHandshake (peer : SocketAddr) (hr : HandshakeResult) : SecureSession where
  peer := peer
  send := DatagramCipher.new (hr.trafficKeys.sendKey hr.isInitiator)
  recv := DatagramCipher.new (hr.trafficKeys.recvKey hr.isInitiator)
  isInitiator := hr.isInitiator
  transcriptHash := hr.transcriptHash
  remoteStaticPubkey := hr.remoteStaticPubkey

variable {S : Suite}

/-- The initiator side, for the ephemeral secret `eSecret`; `reply` is the first datagram that
reaches the socket after message 1 was sent, `none` when a socket call fails. -/
def connect (localStatic : StaticKeypair S) (remoteStaticPubkey : Bytes 32)
    (sessionCode : List UInt8) (eSecret : Bytes 32) (reply : Option Datagram) :
    Except SessionError SecureSession :=
  let initiator := (NoiseIkInitiator.new localStatic remoteStaticPubkey sessionCode eSecret).1
  match reply with
  | none => .error .io
  | some d =>
    let buf := d.received msg2Len
    if buf.length ≠ msg2Len then
      .error (.handshake (.badMessageLength msg2Len buf.length))
    else
      match initiator.receiveMessage2 localStatic buf with
      | .error e => .error (.handshake e)
      | .ok hr => .ok (fromHandshake d.source hr)

/-- The responder side, for the ephemeral secret `eSecret`; `arrival` is the first datagram that
reaches the socket, `none` when a socket call fails. -/
def accept (localStatic : StaticKeypair S) (sessionCode : List UInt8) (eSecret : Bytes 32)
    (arrival : Option Datagram) : Except SessionError SecureSession :=
  match arrival with
  | none => .error .io
  | some d =>
    match NoiseIkResponder.receiveMessage1 localStatic sessionCode (d.received msg1Len) with
    | .error e => .error (.handshake e)
    | .ok responder => .ok (fromHandshake d.source (responder.sendMessage2 S eSecret).1)

variable (A : Aead)

/-- `send`: the datagram handed to the socket and the session after it. -/
def sendDatagram (s : SecureSession) (plaintext : List UInt8) : List UInt8 × SecureSession :=
  let (sealed, cipher) := s.send.sealDatagram A plaintext
  (sealed.asBytes, { s with send := cipher })

/-- The size of the buffer of `recv`. -/
def recvBufLen : ℕ := 8192

/-- `recv`: the plaintext of the next datagram; `none` stands for a socket error. The session keeps
no record of it. -/
def recvDatagram (s : SecureSession) (arrival : Option Datagram) :
    Except SessionError (List UInt8) :=
  match arrival with
  | none => .error .io
  | some d =>
    match s.recv.openBytes A (d.received recvBufLen) with
    | some plaintext => .ok plaintext
    | none => .error .authFailed

variable {A}

/-- A session is connected when the first datagram is an accepted message 2. -/
theorem connect_eq_ok {kp : StaticKeypair S} {remote e : Bytes 32} {code : List UInt8}
    {d : Datagram} {s : SecureSession} :
    connect kp remote code e (some d) = .ok s ↔
      ∃ hr, (NoiseIkInitiator.new kp remote code e).1.receiveMessage2 kp (d.received msg2Len) =
        .ok hr ∧ s = fromHandshake d.source hr := by
  simp only [connect]
  split
  · rename_i hlen
    refine iff_of_false nofun ?_
    rintro ⟨hr, hok, -⟩
    exact hlen (NoiseIkInitiator.receiveMessage2_eq_ok.mp hok).1
  · split
    · rename_i e he
      simp [he]
    · rename_i hr hok
      simp [hok, eq_comm]

/-- A session is accepted when the first datagram is an accepted message 1. -/
theorem accept_eq_ok {kp : StaticKeypair S} {e : Bytes 32} {code : List UInt8} {d : Datagram}
    {s : SecureSession} :
    accept kp code e (some d) = .ok s ↔
      ∃ r, NoiseIkResponder.receiveMessage1 kp code (d.received msg1Len) = .ok r ∧
        s = fromHandshake d.source (r.sendMessage2 S e).1 := by
  simp only [accept]
  split
  · rename_i e he
    simp [he]
  · rename_i r hok
    simp [hok, eq_comm]

/-- A connected session reports the key that it was to connect to. -/
theorem remoteStaticPubkey_of_connect {kp : StaticKeypair S} {remote e : Bytes 32}
    {code : List UInt8} {reply : Option Datagram} {s : SecureSession}
    (h : connect kp remote code e reply = .ok s) : s.remoteStaticPubkey = remote := by
  cases reply with
  | none => cases h
  | some d =>
    obtain ⟨hr, hok, rfl⟩ := connect_eq_ok.mp h
    obtain ⟨-, p, -, rfl⟩ := NoiseIkInitiator.receiveMessage2_eq_ok.mp hok
    rfl

/-- An accepted session reports the key in the message 1 that reached the socket first. -/
theorem remoteStaticPubkey_of_accept {kp : StaticKeypair S} {e : Bytes 32} {code : List UInt8}
    {arrival : Option Datagram} {s : SecureSession} (h : accept kp code e arrival = .ok s) :
    ∃ d r, arrival = some d ∧
      NoiseIkResponder.receiveMessage1 kp code (d.received msg1Len) = .ok r ∧
      s.remoteStaticPubkey = r.initSPub := by
  cases arrival with
  | none => cases h
  | some d =>
    obtain ⟨r, hok, rfl⟩ := accept_eq_ok.mp h
    exact ⟨d, r, rfl, hok, rfl⟩

end SecureSession

/-! ## Two sessions and the network between them -/

/-- Two connected sessions, `true` that of the initiator, with the history of their traffic. -/
structure Net where
  /-- The session of each side. -/
  session : Bool → SecureSession
  /-- The sealings that each side made by `send`. -/
  sealed : Bool → List Sealing
  /-- What reached the receive buffer of each side. -/
  arrived : Bool → List (List UInt8)
  /-- The datagrams for which `recv` of each side returned a plaintext, with that plaintext. -/
  returned : Bool → List (List UInt8 × List UInt8)

/-- What can happen: a side sends a plaintext, or the network hands a datagram of its choice to a
side, whose `recv` processes it. -/
inductive Net.Event where
  | send (side : Bool) (plaintext : List UInt8)
  | deliver (side : Bool) (d : Datagram)

namespace Net

/-- The two sessions of a handshake with the traffic keys `keys`, before any traffic. -/
def start (keys : TrafficKeys) (transcriptHash : Bytes 32) (remote : Bool → Bytes 32)
    (peer : Bool → SocketAddr) : Net where
  session side := SecureSession.fromHandshake (peer side)
    ⟨keys, transcriptHash, remote side, side⟩
  sealed _ := []
  arrived _ := []
  returned _ := []

variable (A : Aead)

/-- One event. -/
def step (s : Net) : Event → Net
  | .send side plaintext =>
    { s with
      session := Function.update s.session side ((s.session side).sendDatagram A plaintext).2
      sealed := Function.update s.sealed side
        (s.sealed side ++ [(s.session side).send.sealing plaintext]) }
  | .deliver side d =>
    let w := d.received SecureSession.recvBufLen
    { s with
      arrived := Function.update s.arrived side (s.arrived side ++ [w])
      returned := match (s.session side).recvDatagram A (some d) with
        | .ok plaintext =>
          Function.update s.returned side (s.returned side ++ [(w, plaintext)])
        | .error _ => s.returned }

/-- The ideal cipher: a datagram that `recv` is about to accept was sealed before by one of the two
sides. -/
def Ideal (s : Net) : Event → Prop
  | .send _ _ => True
  | .deliver side d =>
    let w := d.received SecureSession.recvBufLen
    A.Authentic (s.sealed true ++ s.sealed false) (s.session side).recv.key
      (Bytes.ofList 12 w) [] (w.drop 12)

/-- Whether a step is ideal can be decided: only a delivery can fail to be. -/
instance (s : Net) : ∀ e, Decidable (s.Ideal A e)
  | .send _ _ => isTrue trivial
  | .deliver side d => inferInstanceAs (Decidable (A.Authentic _ (s.session side).recv.key
      (Bytes.ofList 12 (d.received SecureSession.recvBufLen)) []
      ((d.received SecureSession.recvBufLen).drop 12)))

/-- Every plaintext returned is that of a sealing of the other side, in the datagram of that
sealing. -/
def NothingInjected (s : Net) : Prop :=
  ∀ side, ∀ x ∈ s.returned side, ∃ q ∈ s.sealed (!side), x = (wire A q, q.msg)

/-- Each side returned every datagram at most once. -/
def AtMostOnce (s : Net) : Prop := ∀ side, ((s.returned side).map Prod.fst).Nodup

/-- The network does not hand a side, for the second time, a datagram that the other side sealed. -/
def NotReplayed (s : Net) : Event → Prop
  | .send _ _ => True
  | .deliver side d =>
    let w := d.received SecureSession.recvBufLen
    ¬ (w ∈ (s.sealed (!side)).map (wire A) ∧ w ∈ s.arrived side)

/-- Whether a delivery is a replay can be decided. -/
instance (s : Net) : ∀ e, Decidable (s.NotReplayed A e)
  | .send _ _ => isTrue trivial
  | .deliver side d => inferInstanceAs (Decidable (¬ (d.received SecureSession.recvBufLen ∈
      (s.sealed (!side)).map (wire A) ∧
        d.received SecureSession.recvBufLen ∈ s.arrived side)))

/-- What every run with an ideal cipher keeps: the keys of the handshake, and that the history of
each side is what its cipher accepted. -/
structure Inv (keys : TrafficKeys) (s : Net) : Prop where
  /-- A side seals under its send key. -/
  send : ∀ side, (s.session side).send.key = keys.sendKey side
  /-- A side opens under the other side's send key. -/
  recv : ∀ side, (s.session side).recv.key = keys.sendKey (!side)
  /-- The sealings of a side are under its send key. -/
  sealed : ∀ side, ∀ q ∈ s.sealed side, q.key = keys.sendKey side ∧ q.aad = []
  /-- A datagram that reached a side was returned exactly if its cipher accepts it. -/
  returned : ∀ side w, w ∈ (s.returned side).map Prod.fst ↔
    w ∈ s.arrived side ∧ ∃ p, (s.session side).recv.openBytes A w = some p
  /-- What was returned was sealed by the other side. -/
  nothingInjected : s.NothingInjected A

variable {A} {keys : TrafficKeys} {s : Net}

/-- Sealing changes no cipher of a receiving direction. -/
theorem step_send_recv (s : Net) (side : Bool) (plaintext : List UInt8) (side' : Bool) :
    ((s.step A (.send side plaintext)).session side').recv = (s.session side').recv := by
  by_cases h : side' = side
  · subst h
    simp [step, SecureSession.sendDatagram]
  · simp [step, h]

/-- A delivery that the cipher accepts is recorded. -/
theorem step_deliver_of_open {side : Bool} {d : Datagram} {p : List UInt8}
    (h : (s.session side).recv.openBytes A (d.received SecureSession.recvBufLen) = some p) :
    s.step A (.deliver side d) =
      { s with
        arrived := Function.update s.arrived side
          (s.arrived side ++ [d.received SecureSession.recvBufLen])
        returned := Function.update s.returned side
          (s.returned side ++ [(d.received SecureSession.recvBufLen, p)]) } := by
  simp [step, SecureSession.recvDatagram, h]

/-- A delivery that the cipher rejects returns nothing. -/
theorem step_deliver_of_not_open {side : Bool} {d : Datagram}
    (h : (s.session side).recv.openBytes A (d.received SecureSession.recvBufLen) = none) :
    s.step A (.deliver side d) =
      { s with
        arrived := Function.update s.arrived side
          (s.arrived side ++ [d.received SecureSession.recvBufLen]) } := by
  simp [step, SecureSession.recvDatagram, h]

/-- With an ideal cipher and two different keys, what a side accepts is the datagram of a sealing
of the other side. -/
theorem Inv.sealed_of_open (hinv : s.Inv A keys)
    (hkeys : keys.initiatorToResponder ≠ keys.responderToInitiator) {side : Bool} {d : Datagram}
    (hideal : s.Ideal A (.deliver side d)) {p : List UInt8}
    (h : (s.session side).recv.openBytes A (d.received SecureSession.recvBufLen) = some p) :
    ∃ q ∈ s.sealed (!side), (d.received SecureSession.recvBufLen, p) = (wire A q, q.msg) := by
  obtain ⟨n, hw⟩ := DatagramCipher.openBytes_eq_some.mp h
  have hdec : A.decrypt (s.session side).recv.key
      (Bytes.ofList 12 (d.received SecureSession.recvBufLen)) []
      ((d.received SecureSession.recvBufLen).drop 12) = some p := by
    rw [hw, wire, Bytes.ofList_append, List.drop_left' n.length_val]
    exact A.decrypt_encrypt _ _ _ _
  have hmem := hideal p hdec
  rw [hw, wire, Bytes.ofList_append] at hmem
  -- the key tells which of the two sides made the sealing
  have hside : ∀ side', (⟨(s.session side).recv.key, n, [], p⟩ : Sealing) ∈ s.sealed side' →
      side' = !side := by
    intro side' hq
    have hkey := (hinv.sealed side' _ hq).1
    rw [hinv.recv] at hkey
    revert hkey
    cases side <;> cases side' <;> simp [TrafficKeys.sendKey, hkeys, hkeys.symm]
  refine ⟨⟨(s.session side).recv.key, n, [], p⟩, ?_, by rw [hw]⟩
  rcases List.mem_append.mp hmem with hq | hq
  · exact hside true hq ▸ hq
  · exact hside false hq ▸ hq

/-- A datagram that the other side sealed is accepted. -/
theorem Inv.open_of_sealed (hinv : s.Inv A keys) {side : Bool} {w : List UInt8}
    (h : w ∈ (s.sealed (!side)).map (wire A)) :
    ∃ p, (s.session side).recv.openBytes A w = some p := by
  obtain ⟨q, hq, rfl⟩ := List.mem_map.mp h
  obtain ⟨hkey, haad⟩ := hinv.sealed _ q hq
  refine ⟨q.msg, DatagramCipher.openBytes_eq_some.mpr ⟨q.nonce, ?_⟩⟩
  rw [hinv.recv, ← hkey, ← haad]

/-- Sealing adds to the sealings of one side. -/
theorem mem_step_send_sealed {side side' : Bool} {plaintext : List UInt8} {q : Sealing} :
    q ∈ (s.step A (.send side plaintext)).sealed side' ↔
      q ∈ s.sealed side' ∨ side' = side ∧ q = (s.session side).send.sealing plaintext := by
  by_cases h : side' = side
  · subst h
    simp [step]
  · simp [step, h]

/-- Sealing keeps the invariant. -/
theorem Inv.send_step (hinv : s.Inv A keys) (side : Bool) (plaintext : List UInt8) :
    (s.step A (.send side plaintext)).Inv A keys where
  send side' := by
    rw [← hinv.send side']
    by_cases h : side' = side
    · subst h
      simp [step, SecureSession.sendDatagram, DatagramCipher.sealDatagram]
    · simp [step, h]
  recv side' := by rw [step_send_recv, hinv.recv]
  sealed side' q hq := by
    rcases mem_step_send_sealed.mp hq with hq | ⟨rfl, rfl⟩
    · exact hinv.sealed side' q hq
    · exact ⟨hinv.send side', rfl⟩
  returned side' w := by
    rw [step_send_recv]
    exact hinv.returned side' w
  nothingInjected side' x hx := by
    obtain ⟨q, hq, rfl⟩ := hinv.nothingInjected side' x hx
    exact ⟨q, mem_step_send_sealed.mpr (.inl hq), rfl⟩

/-- An accepted delivery keeps the invariant. -/
theorem Inv.deliver_of_open (hinv : s.Inv A keys)
    (hkeys : keys.initiatorToResponder ≠ keys.responderToInitiator) {side : Bool} {d : Datagram}
    (hideal : s.Ideal A (.deliver side d)) {p : List UInt8}
    (h : (s.session side).recv.openBytes A (d.received SecureSession.recvBufLen) = some p) :
    (s.step A (.deliver side d)).Inv A keys := by
  rw [step_deliver_of_open h]
  refine ⟨hinv.send, hinv.recv, hinv.sealed, fun side' w => ?_, fun side' x hx => ?_⟩
  · -- Only the receiving side has returned something new.
    by_cases hside : side' = side
    · subst hside
      have hret := hinv.returned side' w
      simp only [Function.update_self, List.map_append, List.mem_append, hret, List.map_cons,
        List.map_nil, List.mem_singleton, or_and_right]
      refine or_congr_right ⟨?_, And.left⟩
      rintro rfl
      exact ⟨rfl, p, h⟩
    · simpa [hside] using hinv.returned side' w
  -- What the other side has returned is as before.
  · by_cases hside : side' = side
    · subst hside
      simp only [Function.update_self, List.mem_append, List.mem_singleton] at hx
      rcases hx with hx | rfl
      · exact hinv.nothingInjected side' x hx
      · exact hinv.sealed_of_open hkeys hideal h
    · simp only [Function.update_of_ne hside] at hx
      exact hinv.nothingInjected side' x hx

/-- A rejected delivery keeps the invariant. -/
theorem Inv.deliver_of_not_open (hinv : s.Inv A keys) {side : Bool} {d : Datagram}
    (h : (s.session side).recv.openBytes A (d.received SecureSession.recvBufLen) = none) :
    (s.step A (.deliver side d)).Inv A keys := by
  rw [step_deliver_of_not_open h]
  refine ⟨hinv.send, hinv.recv, hinv.sealed, fun side' w => ?_, hinv.nothingInjected⟩
  rw [hinv.returned side' w]
  by_cases hside : side' = side
  · subst hside
    simp only [Function.update_self, List.mem_append, List.mem_singleton, or_and_right]
    refine (or_iff_left ?_).symm
    rintro ⟨rfl, p, hp⟩
    simp [h] at hp
  · simp only [Function.update_of_ne hside]

/-- Every ideal event keeps the invariant. -/
theorem Inv.step (hkeys : keys.initiatorToResponder ≠ keys.responderToInitiator) (s : Net)
    (e : Event) (hinv : s.Inv A keys) (hideal : s.Ideal A e) : (s.step A e).Inv A keys := by
  cases e with
  | send side plaintext => exact hinv.send_step side plaintext
  | deliver side d =>
    cases h : (s.session side).recv.openBytes A (d.received SecureSession.recvBufLen) with
    | none => exact hinv.deliver_of_not_open h
    | some p => exact hinv.deliver_of_open hkeys hideal h

/-- An event keeps `AtMostOnce` exactly if it replays nothing. -/
theorem Inv.atMostOnce_step (hkeys : keys.initiatorToResponder ≠ keys.responderToInitiator)
    (s : Net) (e : Event) (hinv : s.Inv A keys) (hideal : s.Ideal A e) :
    (s.step A e).AtMostOnce ↔ s.AtMostOnce ∧ s.NotReplayed A e := by
  cases e with
  | send side plaintext => exact (and_iff_left trivial).symm
  | deliver side d =>
    cases h : (s.session side).recv.openBytes A (d.received SecureSession.recvBufLen) with
    | none =>
      -- a datagram that is rejected is none of the sealed ones
      rw [step_deliver_of_not_open h]
      refine (and_iff_left fun hreplay => ?_).symm
      obtain ⟨p, hp⟩ := hinv.open_of_sealed hreplay.1
      simp [h] at hp
    | some p =>
      -- an accepted one is sealed, and was returned before exactly if it arrived before
      have hmem : d.received SecureSession.recvBufLen ∈ (s.sealed (!side)).map (wire A) := by
        obtain ⟨q, hq, heq⟩ := hinv.sealed_of_open hkeys hideal h
        exact List.mem_map.mpr ⟨q, hq, (Prod.mk.inj heq).1.symm⟩
      have hfresh : s.NotReplayed A (.deliver side d) ↔
          d.received SecureSession.recvBufLen ∉ (s.returned side).map Prod.fst := by
        rw [hinv.returned]
        simp only [NotReplayed, hmem, true_and, h, Option.some.injEq, exists_eq', and_true]
      have hsplit : s.AtMostOnce ↔ ((s.returned side).map Prod.fst).Nodup ∧
          ∀ x, x ≠ side → ((s.returned x).map Prod.fst).Nodup :=
        ⟨fun hs => ⟨hs side, fun x _ => hs x⟩, fun hs x =>
          if hx : x = side then hx ▸ hs.1 else hs.2 x hx⟩
      rw [hfresh, hsplit, step_deliver_of_open h, AtMostOnce,
        Function.forall_update_iff s.returned fun _ l => (l.map Prod.fst).Nodup,
        List.map_append, List.map_singleton, ← List.concat_eq_append, List.nodup_concat]
      tauto

/-- The invariant holds before any traffic. -/
theorem Inv.start (keys : TrafficKeys) (transcriptHash : Bytes 32) (remote : Bool → Bytes 32)
    (peer : Bool → SocketAddr) : (start keys transcriptHash remote peer).Inv A keys where
  send _ := rfl
  recv side := by cases side <;> rfl
  sealed _ _ hq := by simp [Net.start] at hq
  returned _ _ := by simp [Net.start]
  nothingInjected _ _ hx := by simp [Net.start] at hx

/-- In every run of two sessions with an ideal cipher, what `recv` returns is what the other side
sealed, and no sealed datagram is returned twice exactly if the network delivers none twice. -/
theorem content_from_peer_at_most_once_iff (A : Aead) (keys : TrafficKeys)
    (hkeys : keys.initiatorToResponder ≠ keys.responderToInitiator) (transcriptHash : Bytes 32)
    (remote : Bool → Bytes 32) (peer : Bool → SocketAddr) (es : List Event)
    (hideal : Guarded (Net.step A) (Ideal A) (start keys transcriptHash remote peer) es) :
    let s := run (Net.step A) (start keys transcriptHash remote peer) es
    s.NothingInjected A ∧ (s.AtMostOnce ↔
      Guarded (Net.step A) (NotReplayed A) (start keys transcriptHash remote peer) es) := by
  have hinv := Inv.start (A := A) keys transcriptHash remote peer
  have hstart : (start keys transcriptHash remote peer).AtMostOnce := fun _ => List.nodup_nil
  refine ⟨(run_invariant (Inv.step hkeys) hideal hinv).nothingInjected, ?_⟩
  rw [run_iff_guarded (Inv.step hkeys) (Inv.atMostOnce_step hkeys) hideal hinv]
  exact and_iff_right hstart

/-- Two sessions to evaluate runs on. -/
def sample : Net :=
  start ⟨Bytes.fill 32 1, Bytes.fill 32 2⟩ (Bytes.fill 32 0) (fun _ => Bytes.fill 32 0)
    fun _ => ⟨[127, 0, 0, 1], 9000⟩

/-- The first datagram that the initiator seals, of the plaintext `[7]`. -/
def sampleDatagram : Datagram :=
  ⟨⟨[127, 0, 0, 1], 9001⟩, ((sample.session true).sendDatagram Aead.clear [7]).1⟩

/-- A run in which the network forges a datagram, delivers the sealed one and reflects it back. -/
theorem content_from_peer_forged :
    let es := [.send true [7], .deliver false ⟨⟨[127, 0, 0, 1], 9001⟩, [1, 2, 3]⟩,
      .deliver false sampleDatagram, .deliver true sampleDatagram]
    Guarded (Net.step Aead.clear) (Ideal Aead.clear) sample es ∧
      (run (Net.step Aead.clear) sample es).NothingInjected Aead.clear ∧
      (run (Net.step Aead.clear) sample es).AtMostOnce := by
  have hideal : Guarded (Net.step Aead.clear) (Ideal Aead.clear) sample
      [.send true [7], .deliver false ⟨⟨[127, 0, 0, 1], 9001⟩, [1, 2, 3]⟩,
        .deliver false sampleDatagram, .deliver true sampleDatagram] := by decide +kernel
  have h := content_from_peer_at_most_once_iff Aead.clear _ (by decide) _ _ _ _ hideal
  exact ⟨hideal, h.1, h.2.mpr (by decide +kernel)⟩

/-- A datagram that the network delivers twice is returned twice. -/
theorem replayed_datagram_returned_twice :
    let es := [.send true [7], .deliver false sampleDatagram, .deliver false sampleDatagram]
    Guarded (Net.step Aead.clear) (Ideal Aead.clear) sample es ∧
      ¬ (run (Net.step Aead.clear) sample es).AtMostOnce := by
  refine ⟨by decide +kernel, fun h => ?_⟩
  exact absurd (h false) (by decide +kernel)

end Net

end LowBand.Crypto
