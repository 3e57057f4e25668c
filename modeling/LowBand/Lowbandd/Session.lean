import LowBand.Lib.Inet
import LowBand.Lib.Reader
import LowBand.Lib.Run
import LowBand.Lowbandd.Mesh
import LowBand.Signaling.Server

/-!
# Host and joiner over the signaling store

`establish_host` and `establish_join` of `session.rs` meet in the candidate list of one session
code. A joiner posts its static key and its addresses one after another; the host takes the first
key and then, in later polls, the first address that is not its own. A `Meeting` is the server with
a host and any number of join runs on the code of the host, one request a step, and the log of who
posted which candidate.

The server yields the candidates in the order of the posts (`Filed.post`), so the first key and the
first address that the host can take never change once they are there. The host uses what one run
published exactly if the run that posts the first address also has the first key: a condition on
the step that posts the address (`OwnKeyFirst`), and `paired_of_ownKeyFirst` says that a run in
which every step meets it never mixes two joiners. A joiner that stops after its key and one that
comes after it are mixed (`not_paired_after_stopped_join`).
-/

namespace LowBand.Lowbandd

open Lib Crypto Signaling

/-! ## Candidates -/

/-- `str::strip_prefix`. -/
def stripTag (tag s : List UInt8) : Option (List UInt8) :=
  if tag.isPrefixOf s then some (s.drop tag.length) else none

/-- The tag `key:` of a static key. -/
def keyTag : List UInt8 := [107, 101, 121, 58]

/-- The tag `udp:` of a transport address. -/
def udpTag : List UInt8 := [117, 100, 112, 58]

/-- A text with the tag in front is the tag and the text. -/
theorem stripTag_append (tag s : List UInt8) : stripTag tag (tag ++ s) = some s := by
  simp [stripTag]

/-- The `SocketAddr` of an IPv4 address. -/
def socketAddr (x : SocketAddrV4) : SocketAddr := ⟨[x.a, x.b, x.c, x.d], x.port.toNat⟩

/-- `str::parse::<SocketAddr>`: an IPv4 address, else what `parseV6` reads. Both ends bind IPv4
sockets and gather IPv4 addresses, so no text of theirs gets to `parseV6`. -/
def parseSocketAddr (parseV6 : List UInt8 → Option SocketAddr) (s : List UInt8) :
    Option SocketAddr :=
  match SocketAddrV4.parse s with
  | some x => some (socketAddr x)
  | none => parseV6 s

/-- The search of `peer_candidate` in a list of candidates: the first one with the tag that `parse`
accepts. -/
def firstCandidate {α : Type} (candidates : List (List UInt8)) (tag : List UInt8)
    (parse : List UInt8 → Option α) : Option α :=
  (candidates.filterMap (stripTag tag)).findSome? parse

/-- What the search makes of one candidate. -/
def candidateValue {α : Type} (tag : List UInt8) (parse : List UInt8 → Option α)
    (c : List UInt8) : Option α :=
  (stripTag tag c).bind parse

/-- The search is over the candidates one by one. -/
theorem firstCandidate_append {α : Type} (cs ds : List (List UInt8)) (tag : List UInt8)
    (parse : List UInt8 → Option α) :
    firstCandidate (cs ++ ds) tag parse =
      (firstCandidate cs tag parse).or (firstCandidate ds tag parse) := by
  rw [firstCandidate, List.filterMap_append, List.findSome?_append]
  rfl

/-- The search in a single candidate. -/
theorem firstCandidate_singleton {α : Type} (c tag : List UInt8) (parse : List UInt8 → Option α) :
    firstCandidate [c] tag parse = candidateValue tag parse c := by
  unfold firstCandidate candidateValue
  rw [List.filterMap_cons, List.filterMap_nil]
  cases stripTag tag c with
  | none => rfl
  | some v => simp

/-! ## The parties -/

/-- The addresses of a party's socket: the local one, and the one that a STUN server reported when
there was a server and it did. -/
structure Endpoint where
  /-- `local_addr`. -/
  localAddr : SocketAddrV4
  /-- The outcome of `gather_reflexive`. -/
  reflexive : Option SocketAddrV4

/-- The addresses that `publish_local_candidates` publishes and returns. -/
def Endpoint.published (x : Endpoint) : List SocketAddrV4 :=
  match x.reflexive with
  | some r => if r = x.localAddr then [x.localAddr] else [x.localAddr, r]
  | none => [x.localAddr]

/-- A request to the signaling server. -/
inductive Request where
  | join
  | postOffer (sdp : List UInt8)
  | postCandidate (candidate : List UInt8)
  | postAnswer (sdp : List UInt8)
deriving DecidableEq

/-- The candidate that a request posts. -/
def Request.candidate? : Request → Option (List UInt8)
  | .postCandidate c => some c
  | _ => none

/-- A request with a candidate posts it. -/
theorem Request.eq_postCandidate {q : Request} {c : List UInt8} (h : q.candidate? = some c) :
    q = .postCandidate c := by
  cases q with
  | postCandidate c' => rw [Option.some.inj h]
  | join | postOffer | postAnswer => cases h

/-- The posts of `publish_local_candidates`. -/
def Endpoint.posts (x : Endpoint) : List Request :=
  x.published.map fun a => .postCandidate (udpTag ++ a.display)

/-- What a run of `establish_join` brings along. -/
structure JoinRun extends Endpoint where
  /-- The static public key. -/
  key : Bytes 32

/-- The candidate of the static key. -/
def JoinRun.keyCandidate (r : JoinRun) : List UInt8 := keyTag ++ encodeKey r.key

/-- The requests of `establish_join`, before it waits for the handshake. -/
def JoinRun.requests (r : JoinRun) : List Request :=
  .join :: .postCandidate r.keyCandidate ::
    (r.toEndpoint.posts ++ [.postAnswer (strBytes "lowband/1 answer")])

/-- The posts of `establish_host`, before it waits for the joiner. -/
def Endpoint.hostRequests (x : Endpoint) : List Request :=
  .postOffer (strBytes "lowband/1 offer") :: x.posts

/-- A request is handled: whether the client gets the status it expects, and the store after it. -/
def Request.send (st : AppState) (now : ℤ) (code : List UInt8) : Request → Bool × AppState
  | .join =>
    match st.getJoin now code with
    | (.ok _, st) => (true, st)
    | (.error _, st) => (false, st)
  | .postOffer sdp =>
    match st.postOffer now code sdp with
    | .ok (status, st) => (status = .ok, st)
    | .error _ => (false, st)
  | .postCandidate c =>
    match st.postCandidate now code c with
    | .ok (status, st) => (status = .accepted, st)
    | .error _ => (false, st)
  | .postAnswer sdp =>
    match st.postAnswer now code (some sdp) with
    | .ok (status, st) => (status = .ok, st)
    | .error _ => (false, st)

/-- `peer_candidate`: one poll of the candidates, with the store after it. -/
def peerCandidate {α : Type} (st : AppState) (now : ℤ) (code tag : List UInt8)
    (parse : List UInt8 → Option α) : Option α × AppState :=
  match st.getJoin now code with
  | (.ok info, st) => (firstCandidate info.candidates tag parse, st)
  | (.error _, st) => (none, st)

/-- How far `establish_host` is, after `create_session`. -/
inductive HostPhase where
  /-- It has posts to make; with none left it waits for the joiner's key. -/
  | posting (rest : List Request)
  /-- It waits for the joiner's address. -/
  | waitAddr (key : Bytes 32)
  /-- It connects to the address with the key. -/
  | connecting (key : Bytes 32) (addr : SocketAddr)
  /-- It has connected and told the server so. -/
  | connected (key : Bytes 32) (addr : SocketAddr)
  /-- It has returned an error. -/
  | failed

/-- The key that the host has taken. -/
def HostPhase.key? : HostPhase → Option (Bytes 32)
  | .waitAddr key | .connecting key _ | .connected key _ => some key
  | .posting _ | .failed => none

/-- The address that the host has taken. -/
def HostPhase.addr? : HostPhase → Option SocketAddr
  | .connecting _ addr | .connected _ addr => some addr
  | .posting _ | .waitAddr _ | .failed => none

/-! ## Meetings -/

/-- The parties of a meeting. -/
structure Parties where
  /-- The host's socket. -/
  host : Endpoint
  /-- The join runs. -/
  run : ℕ → JoinRun
  /-- How IPv6 addresses are read. -/
  parseV6 : List UInt8 → Option SocketAddr

/-- The address that the host takes from the text of one: any that is not its own. -/
def Parties.peerAddr (p : Parties) (v : List UInt8) : Option SocketAddr :=
  (parseSocketAddr p.parseV6 v).filter fun a => a ∉ p.host.published.map socketAddr

/-- The server, the host and the join runs on the host's code. -/
structure Meeting where
  /-- The server. -/
  st : AppState
  /-- The code of the session. -/
  code : List UInt8
  /-- The host. -/
  host : HostPhase
  /-- The requests that each join run has still to make, none when it has stopped. -/
  requests : ℕ → List Request
  /-- The candidates posted for the code, with the join run that posted each, `none` for the
  host. -/
  log : List (Option ℕ × List UInt8)

/-- One step: a party makes its next request while the clock of the server reads `now`, or the
host's deadline passes. A party that stops takes no more steps. -/
inductive MeetingEvent where
  | host (now : ℤ)
  | timeout
  | join (i : ℕ) (now : ℤ)

namespace Meeting

/-- The host has created its session. -/
def start (p : Parties) (st : AppState) (now : ℤ) : Meeting where
  st := (st.postSession now).2
  code := (st.postSession now).1
  host := .posting p.host.hostRequests
  requests i := (p.run i).requests
  log := []

/-- The log after a request of `author` was handled. -/
def record (log : List (Option ℕ × List UInt8)) (author : Option ℕ) (q : Request) (ok : Bool) :
    List (Option ℕ × List UInt8) :=
  match ok, q.candidate? with
  | true, some c => log ++ [(author, c)]
  | _, _ => log

/-- A refused request and one without a candidate leave the log. -/
theorem record_of_none {log : List (Option ℕ × List UInt8)} {author : Option ℕ} {q : Request}
    {ok : Bool} (h : ok = true → q.candidate? = none) : record log author q ok = log := by
  cases ok with
  | false => rfl
  | true => simp [record, h rfl]

/-- A posted candidate is logged. -/
theorem record_of_some {log : List (Option ℕ × List UInt8)} {author : Option ℕ} {q : Request}
    {c : List UInt8} (h : q.candidate? = some c) :
    record log author q true = log ++ [(author, c)] := by
  simp [record, h]

/-- The next step of the host. -/
def stepHost (p : Parties) (w : Meeting) (now : ℤ) : Meeting :=
  match w.host with
  | .posting (q :: rest) =>
    let sent := q.send w.st now w.code
    { w with
      st := sent.2
      host := if sent.1 then .posting rest else .failed
      log := record w.log none q sent.1 }
  | .posting [] =>
    let polled := peerCandidate w.st now w.code keyTag decodeKey
    { w with
      st := polled.2
      host := match polled.1 with
        | some key => .waitAddr key
        | none => .posting [] }
  | .waitAddr key =>
    let polled := peerCandidate w.st now w.code udpTag p.peerAddr
    { w with
      st := polled.2
      host := match polled.1 with
        | some addr => .connecting key addr
        | none => .waitAddr key }
  | .connecting key addr =>
    match w.st.postConnected now w.code with
    | .ok (_, st) => { w with st := st, host := .connected key addr }
    | .error _ => { w with host := .failed }
  | .connected _ _ | .failed => w

/-- The next step of a join run. -/
def stepJoin (w : Meeting) (i : ℕ) (now : ℤ) : Meeting :=
  match w.requests i with
  | q :: rest =>
    let sent := q.send w.st now w.code
    { w with
      st := sent.2
      requests := Function.update w.requests i (if sent.1 then rest else [])
      log := record w.log (some i) q sent.1 }
  | [] => w

/-- One step. The deadline is looked at while the host waits for a candidate. -/
def step (p : Parties) (w : Meeting) : MeetingEvent → Meeting
  | .host now => stepHost p w now
  | .timeout =>
    match w.host with
    | .posting [] | .waitAddr _ => { w with host := .failed }
    | _ => w
  | .join i now => stepJoin w i now

/-- The key that the host would take next. -/
def firstKey (w : Meeting) : Option (Bytes 32) :=
  firstCandidate (w.st.pendingCandidates w.code) keyTag decodeKey

/-- The address that the host would take next. -/
def firstAddr (p : Parties) (w : Meeting) : Option SocketAddr :=
  firstCandidate (w.st.pendingCandidates w.code) udpTag p.peerAddr

/-- The run `i` has published the key and the address. -/
def Published (p : Parties) (w : Meeting) (i : ℕ) (key : Bytes 32) (addr : SocketAddr) : Prop :=
  (∃ c, (some i, c) ∈ w.log ∧ candidateValue keyTag decodeKey c = some key) ∧
    ∃ c, (some i, c) ∈ w.log ∧ candidateValue udpTag (parseSocketAddr p.parseV6) c = some addr

/-- When the host goes on to connect, its key and its address were published by one join run. -/
def Paired (p : Parties) (w : Meeting) : Prop :=
  ∀ key addr, w.host.key? = some key → w.host.addr? = some addr → ∃ i, w.Published p i key addr

/-- The request that an event makes. -/
def next (w : Meeting) : MeetingEvent → Option Request
  | .host _ =>
    match w.host with
    | .posting (q :: _) => some q
    | _ => none
  | .timeout => none
  | .join i _ => (w.requests i).head?

/-- The condition on one step: a candidate is posted before the counter of the server wraps, and
the join run that posts the first address that the host can take has the first key. -/
def OwnKeyFirst (p : Parties) (w : Meeting) (e : MeetingEvent) : Prop :=
  ∀ c ∈ (w.next e).bind Request.candidate?, w.st.candSeq + 1 < 2 ^ 64 ∧
    match e with
    | .join i _ => (candidateValue udpTag p.peerAddr c).isSome → w.firstAddr p = none →
        w.firstKey = some (p.run i).key
    | .host _ | .timeout => True

end Meeting

/-! ## The store as a log -/

/-- The store yields the candidates `cs` for the code, and the next one goes behind them. -/
structure Filed (st : AppState) (code : List UInt8) (cs : List (List UInt8)) : Prop where
  /-- The candidates of the code. -/
  pending : st.pendingCandidates code = cs
  /-- Their keys are below the next one. -/
  below : ∀ e ∈ scanPrefix st.iceCandidates (candidateTag code),
    e.1 < candidateKey code st.candSeq

variable {st st' : AppState} {code : List UInt8} {cs : List (List UInt8)}

/-- The candidates stay while neither they nor their counter are written. -/
theorem Filed.of_same (h : Filed st code cs) (hcands : st'.iceCandidates = st.iceCandidates)
    (hseq : st'.candSeq = st.candSeq) : Filed st' code cs := by
  obtain ⟨hpending, hbelow⟩ := h
  unfold AppState.pendingCandidates at hpending
  refine ⟨?_, ?_⟩
  · rw [AppState.pendingCandidates, hcands, hpending]
  · rw [hcands, hseq]
    exact hbelow

/-- A posted candidate goes behind the ones that are there. -/
theorem Filed.post (h : Filed st code cs) {c : List UInt8} (hwrap : st.candSeq + 1 < 2 ^ 64)
    (hcands : st'.iceCandidates = st.iceCandidates.insert (candidateKey code st.candSeq) c)
    (hseq : st'.candSeq = (st.candSeq + 1) % 2 ^ 64) : Filed st' code (cs ++ [c]) := by
  have hscan := scanPrefix_insert_last (v := c) (List.prefix_append (candidateTag code) _) h.below
  have hnext : candidateKey code st.candSeq < candidateKey code st'.candSeq := by
    rw [hseq, Nat.mod_eq_of_lt hwrap]
    exact List.append_left_lt (padDigits_lt (by decide) le_rfl hwrap (Nat.lt_succ_self _))
  have hpending := h.pending
  unfold AppState.pendingCandidates at hpending
  refine ⟨?_, ?_⟩
  · rw [AppState.pendingCandidates, hcands]
    rw [candidateKey, hscan, List.map_append, hpending]
    rfl
  · intro e he
    rw [hcands] at he
    rcases List.mem_append.mp (hscan ▸ he) with he | he
    · exact List.lt_trans (h.below e he) hnext
    · rw [List.mem_singleton.mp he]
      exact hnext

/-- A poll shows the candidates of the code and leaves them. -/
theorem getJoin_candidates (st : AppState) (now : ℤ) (code : List UInt8) :
    (st.getJoin now code).2.iceCandidates = st.iceCandidates ∧
      (st.getJoin now code).2.candSeq = st.candSeq ∧
      ∀ info, (st.getJoin now code).1 = .ok info → info.candidates = st.pendingCandidates code := by
  by_cases hlive : st.live now code
  · rw [AppState.getJoin_of_live hlive]
    refine ⟨rfl, rfl, fun info h => ?_⟩
    rw [← Except.ok.inj h]
  · obtain ⟨herr, hst⟩ := AppState.getJoin_of_not_live hlive
    have hno : ∀ info, (st.getJoin now code).1 = .ok info →
        info.candidates = st.pendingCandidates code := by
      intro info hok
      rw [herr] at hok
      cases hok
    rcases hst with hst | hst <;> rw [hst] <;> exact ⟨rfl, rfl, hno⟩

/-- A poll leaves the candidates, and what it finds is the first of them. -/
theorem peerCandidate_spec {α : Type} (st : AppState) (now : ℤ) (code tag : List UInt8)
    (parse : List UInt8 → Option α) :
    (peerCandidate st now code tag parse).2.iceCandidates = st.iceCandidates ∧
      (peerCandidate st now code tag parse).2.candSeq = st.candSeq ∧
      ∀ v, (peerCandidate st now code tag parse).1 = some v →
        firstCandidate (st.pendingCandidates code) tag parse = some v := by
  obtain ⟨hcands, hseq, hinfo⟩ := getJoin_candidates st now code
  unfold peerCandidate
  split
  · rename_i info st' heq
    rw [heq] at hcands hseq hinfo
    refine ⟨hcands, hseq, fun v hv => ?_⟩
    rw [← hinfo info rfl]
    exact hv
  · rename_i e st' heq
    rw [heq] at hcands hseq
    exact ⟨hcands, hseq, fun v hv => by cases hv⟩

/-- What a request does to the candidates: it posts one, or it leaves them. -/
theorem Request.send_cases (q : Request) (st : AppState) (now : ℤ) (code : List UInt8) :
    ((q.send st now code).2.iceCandidates = st.iceCandidates ∧
        (q.send st now code).2.candSeq = st.candSeq ∧
        ((q.send st now code).1 = true → q.candidate? = none)) ∨
      ∃ c, q.candidate? = some c ∧ (q.send st now code).1 = true ∧
        (q.send st now code).2.iceCandidates =
          st.iceCandidates.insert (candidateKey code st.candSeq) c ∧
        (q.send st now code).2.candSeq = (st.candSeq + 1) % 2 ^ 64 := by
  cases q with
  | join =>
    left
    obtain ⟨hcands, hseq, -⟩ := getJoin_candidates st now code
    have hst : (send st now code .join).2 = (st.getJoin now code).2 := by
      simp only [send]
      split <;> simp [*]
    rw [hst]
    exact ⟨hcands, hseq, fun _ => rfl⟩
  | postOffer sdp =>
    left
    by_cases hlive : st.live now code <;>
      simp [send, AppState.postOffer, AppState.checkCode, hlive, candidate?]
  -- Only a candidate that is taken is filed, under the next sequence number.
  | postCandidate c =>
    by_cases hlive : st.live now code
    · right
      refine ⟨c, rfl, ?_⟩
      simp [send, AppState.postCandidate, AppState.checkCode, hlive,
        AppState.nextCandidateSeq]
    · left
      simp [send, AppState.postCandidate, AppState.checkCode, hlive]
  | postAnswer sdp =>
    left
    by_cases hlive : st.live now code <;>
      simp [send, AppState.postAnswer, AppState.checkCode, hlive, candidate?]

/-! ## What the parties post -/

/-- A published key is read as the key. -/
theorem candidateValue_keyCandidate (r : JoinRun) :
    candidateValue keyTag decodeKey r.keyCandidate = some r.key := by
  rw [candidateValue, JoinRun.keyCandidate, stripTag_append]
  exact decodeKey_encodeKey r.key

/-- A published key is no address. -/
theorem candidateValue_udpTag_keyCandidate {α : Type} (parse : List UInt8 → Option α)
    (r : JoinRun) : candidateValue udpTag parse r.keyCandidate = none := rfl

variable {p : Parties}

/-- The host does not take an address of its own. -/
theorem candidateValue_own {x : SocketAddrV4} (hx : x ∈ p.host.published) :
    candidateValue udpTag p.peerAddr (udpTag ++ x.display) = none := by
  rw [candidateValue, stripTag_append, Option.bind_some, Parties.peerAddr, parseSocketAddr,
    SocketAddrV4.parse_display, Option.filter_some, if_neg]
  simpa using ⟨x, hx, rfl⟩

/-- An address that the host takes is the address of the text. -/
theorem candidateValue_of_peerAddr {c : List UInt8} {addr : SocketAddr}
    (h : candidateValue udpTag p.peerAddr c = some addr) :
    candidateValue udpTag (parseSocketAddr p.parseV6) c = some addr := by
  obtain ⟨v, hv, haddr⟩ := Option.bind_eq_some_iff.mp h
  rw [candidateValue, hv]
  exact (Option.filter_eq_some_iff.mp haddr).1

/-- A run that is about to post an address has posted its key. -/
theorem JoinRun.mem_done {r : JoinRun} {done rest : List Request} {c : List UInt8}
    (h : r.requests = done ++ .postCandidate c :: rest) (hc : c ≠ r.keyCandidate) :
    .postCandidate r.keyCandidate ∈ done := by
  rw [JoinRun.requests] at h
  match done, h with
  | [], h => cases h
  | [_], h =>
    simp only [List.cons_append, List.nil_append, List.cons.injEq] at h
    exact absurd (Request.postCandidate.inj h.2.1).symm hc
  | _ :: _ :: done, h =>
    simp only [List.cons_append, List.cons.injEq] at h
    rw [← h.2.1]
    exact List.mem_cons_of_mem _ List.mem_cons_self

namespace Meeting

variable {w w' : Meeting}

/-- What every run keeps in which each step meets the condition. -/
structure Inv (p : Parties) (w : Meeting) : Prop where
  /-- The store holds the logged candidates in the order of the log. -/
  filed : Filed w.st w.code (w.log.map Prod.snd)
  /-- What a join run has left behind is in the log, unless it has stopped. -/
  progress : ∀ i, w.requests i = [] ∨ ∃ done, (p.run i).requests = done ++ w.requests i ∧
    ∀ c, .postCandidate c ∈ done → (some i, c) ∈ w.log
  /-- The host posts no address that it would take. -/
  own : ∀ rest, w.host = .posting rest → ∀ q ∈ rest, ∀ c ∈ q.candidate?,
    candidateValue udpTag p.peerAddr c = none
  /-- The first address is of a run that has the first key. -/
  paired : ∀ addr, w.firstAddr p = some addr →
    ∃ i, w.firstKey = some (p.run i).key ∧ w.Published p i (p.run i).key addr
  /-- The host's key is the first key. -/
  key : ∀ key, w.host.key? = some key → w.firstKey = some key
  /-- The host's address is the first address. -/
  addr : ∀ addr, w.host.addr? = some addr → w.firstAddr p = some addr

/-- The first key is the first one in the log. -/
theorem firstKey_eq {cs : List (List UInt8)} (h : Filed w.st w.code cs) :
    w.firstKey = firstCandidate cs keyTag decodeKey := by
  rw [firstKey, h.pending]

/-- The first address is the first one in the log. -/
theorem firstAddr_eq {cs : List (List UInt8)} (h : Filed w.st w.code cs) :
    w.firstAddr p = firstCandidate cs udpTag p.peerAddr := by
  rw [firstAddr, h.pending]

/-- What was published stays published. -/
theorem Published.mono {i : ℕ} {key : Bytes 32} {addr : SocketAddr}
    (h : w.Published p i key addr) (hlog : w.log ⊆ w'.log) : w'.Published p i key addr := by
  obtain ⟨⟨k, hk, hkey⟩, ⟨a, ha, haddr⟩⟩ := h
  exact ⟨⟨k, hlog hk, hkey⟩, ⟨a, hlog ha, haddr⟩⟩

/-- In a state with the invariant the host does not mix two runs. -/
theorem Inv.paired_host (h : w.Inv p) : w.Paired p := by
  intro key addr hkey haddr
  obtain ⟨i, hfirst, hpub⟩ := h.paired addr (h.addr addr haddr)
  have heq : key = (p.run i).key := Option.some.inj ((h.key key hkey).symm.trans hfirst)
  rw [heq]
  exact ⟨i, hpub⟩

/-- A session whose code has no candidates starts with the invariant. -/
theorem Inv.start (p : Parties) (st : AppState) (now : ℤ)
    (hfresh : st.pendingCandidates (formatCode st.codeSeq) = []) : (start p st now).Inv p := by
  have hscan : scanPrefix st.iceCandidates (candidateTag (formatCode st.codeSeq)) = [] :=
    List.map_eq_nil_iff.mp hfresh
  have hfiled : Filed (Meeting.start p st now).st (Meeting.start p st now).code [] := by
    refine ⟨hfresh, fun e he => ?_⟩
    have hmem : e ∈ scanPrefix st.iceCandidates (candidateTag (formatCode st.codeSeq)) := he
    rw [hscan] at hmem
    cases hmem
  -- Nothing has been filed yet, so there is no first address to speak of.
  refine ⟨hfiled, fun i => .inr ⟨[], rfl, fun c hc => by cases hc⟩, ?_, ?_, ?_, ?_⟩
  · intro rest hrest q hq c hc
    obtain rfl := HostPhase.posting.inj hrest
    rcases List.mem_cons.mp hq with rfl | hq
    · cases hc
    · obtain ⟨x, hx, rfl⟩ := List.mem_map.mp hq
      obtain rfl := Option.some.inj hc
      exact candidateValue_own hx
  · intro addr haddr
    rw [firstAddr_eq hfiled] at haddr
    cases haddr
  · intro key hkey
    cases hkey
  · intro addr haddr
    cases haddr

/-! ## Steps -/

/-- What a step does to the log: it stays, or a candidate goes behind it, and the first address is
posted by a run that has the first key. -/
structure Grows (p : Parties) (w w' : Meeting) : Prop where
  /-- The code stays. -/
  code : w'.code = w.code
  /-- The store follows the log. -/
  filed : Filed w'.st w'.code (w'.log.map Prod.snd)
  /-- The log. -/
  log : w'.log = w.log ∨ ∃ author c, w'.log = w.log ++ [(author, c)] ∧
    ((candidateValue udpTag p.peerAddr c).isSome → w.firstAddr p = none → ∃ i, author = some i ∧
      w.firstKey = some (p.run i).key ∧ (some i, (p.run i).keyCandidate) ∈ w.log)

namespace Grows

variable (hinv : w.Inv p) (h : Grows p w w')

include h in
/-- The log only grows. -/
theorem log_subset : w.log ⊆ w'.log := by
  rcases h.log with heq | ⟨author, c, heq, -⟩ <;> rw [heq]
  exacts [List.Subset.refl _, List.subset_append_left _ _]

include hinv h

/-- The first key stays the first. -/
theorem firstKey {key : Bytes 32} (hkey : w.firstKey = some key) : w'.firstKey = some key := by
  rw [firstKey_eq hinv.filed] at hkey
  rw [firstKey_eq h.filed]
  rcases h.log with heq | ⟨author, c, heq, -⟩
  · rw [heq, hkey]
  · rw [heq, List.map_append, firstCandidate_append, hkey, Option.some_or]

/-- The first address stays the first. -/
theorem firstAddr {addr : SocketAddr} (haddr : w.firstAddr p = some addr) :
    w'.firstAddr p = some addr := by
  rw [firstAddr_eq hinv.filed] at haddr
  rw [firstAddr_eq h.filed]
  rcases h.log with heq | ⟨author, c, heq, -⟩
  · rw [heq, haddr]
  · rw [heq, List.map_append, firstCandidate_append, haddr, Option.some_or]

/-- The first address is still of a run that has the first key. -/
theorem paired {addr : SocketAddr} (haddr : w'.firstAddr p = some addr) :
    ∃ i, w'.firstKey = some (p.run i).key ∧ w'.Published p i (p.run i).key addr := by
  have hold : w.firstAddr p = some addr →
      ∃ i, w'.firstKey = some (p.run i).key ∧ w'.Published p i (p.run i).key addr := by
    intro hfirst
    obtain ⟨i, hkey, hpub⟩ := hinv.paired addr hfirst
    exact ⟨i, h.firstKey hinv hkey, hpub.mono h.log_subset⟩
  rw [firstAddr_eq h.filed] at haddr
  rcases h.log with heq | ⟨author, c, heq, hown⟩
  · rw [heq, ← firstAddr_eq hinv.filed] at haddr
    exact hold haddr
  · rw [heq, List.map_append, firstCandidate_append, ← firstAddr_eq hinv.filed, List.map_singleton,
      firstCandidate_singleton] at haddr
    -- either there was an address before, or the new candidate is the first one
    rcases Option.or_eq_some_iff.mp haddr with hfirst | ⟨hnone, hnew⟩
    · exact hold hfirst
    · obtain ⟨i, rfl, hkey, hmem⟩ := hown (by rw [hnew]; rfl) hnone
      refine ⟨i, h.firstKey hinv hkey, ⟨_, h.log_subset hmem, candidateValue_keyCandidate _⟩,
        c, ?_, candidateValue_of_peerAddr hnew⟩
      rw [heq]
      exact List.mem_append_right _ (List.mem_singleton.mpr rfl)

end Grows

/-- A step that leaves the log and the candidates. -/
theorem Inv.grows_same (hinv : w.Inv p) (hcode : w'.code = w.code) (hlog : w'.log = w.log)
    (hcands : w'.st.iceCandidates = w.st.iceCandidates) (hseq : w'.st.candSeq = w.st.candSeq) :
    Grows p w w' where
  code := hcode
  filed := by
    rw [hcode, hlog]
    exact hinv.filed.of_same hcands hseq
  log := .inl hlog

/-- A request that meets the condition. -/
theorem Inv.grows_send (hinv : w.Inv p) {q : Request} {now : ℤ} {author : Option ℕ}
    (hcode : w'.code = w.code) (hst : w'.st = (q.send w.st now w.code).2)
    (hlog : w'.log = record w.log author q (q.send w.st now w.code).1)
    (hok : ∀ c, q.candidate? = some c → w.st.candSeq + 1 < 2 ^ 64 ∧
      ((candidateValue udpTag p.peerAddr c).isSome → w.firstAddr p = none → ∃ i, author = some i ∧
        w.firstKey = some (p.run i).key ∧ (some i, (p.run i).keyCandidate) ∈ w.log)) :
    Grows p w w' := by
  rcases q.send_cases w.st now w.code with ⟨hcands, hseq, hnone⟩ | ⟨c, hc, htrue, hcands, hseq⟩
  · refine hinv.grows_same hcode ?_ (by rw [hst, hcands]) (by rw [hst, hseq])
    rw [hlog, record_of_none hnone]
  · have hlog' : w'.log = w.log ++ [(author, c)] := by rw [hlog, htrue, record_of_some hc]
    obtain ⟨hwrap, hown⟩ := hok c hc
    refine ⟨hcode, ?_, .inr ⟨author, c, hlog', hown⟩⟩
    rw [hst, hcode, hlog', List.map_append]
    exact hinv.filed.post hwrap hcands hseq

/-- A join run that keeps its requests keeps its progress. -/
theorem Inv.progress_same (hinv : w.Inv p) (hgrows : Grows p w w') {i : ℕ}
    (hreq : w'.requests i = w.requests i) :
    w'.requests i = [] ∨ ∃ done, (p.run i).requests = done ++ w'.requests i ∧
      ∀ c, .postCandidate c ∈ done → (some i, c) ∈ w'.log := by
  rw [hreq]
  refine (hinv.progress i).imp_right ?_
  rintro ⟨done, heq, hdone⟩
  exact ⟨done, heq, fun c hc => hgrows.log_subset (hdone c hc)⟩

/-- A step of the host that posts nothing, after which it holds the first key and address. -/
theorem Inv.of_host (hinv : w.Inv p) (hgrows : Grows p w w') (hreq : w'.requests = w.requests)
    (hposts : ∀ rest, w'.host = .posting rest → ∃ q, w.host = .posting (q ++ rest))
    (hkey : ∀ key, w'.host.key? = some key → w.firstKey = some key)
    (haddr : ∀ addr, w'.host.addr? = some addr → w.firstAddr p = some addr) : w'.Inv p where
  filed := hgrows.filed
  progress i := hinv.progress_same hgrows (congrFun hreq i)
  own rest hrest q hq := by
    obtain ⟨front, hhost⟩ := hposts rest hrest
    exact hinv.own _ hhost q (List.mem_append_right _ hq)
  paired _ := hgrows.paired hinv
  key key hk := hgrows.firstKey hinv (hkey key hk)
  addr addr ha := hgrows.firstAddr hinv (haddr addr ha)

/-- A host that gives up keeps the invariant. -/
theorem Inv.fail (hinv : w.Inv p) : Inv p { w with host := .failed } := by
  refine hinv.of_host (hinv.grows_same rfl rfl rfl rfl) rfl ?_ ?_ ?_
  · intro rest hrest
    cases hrest
  · intro key hk
    cases hk
  · intro addr ha
    cases ha

/-- The host posts. None of its own addresses is one that it takes. -/
theorem Inv.stepHost_posting (hinv : w.Inv p) {now : ℤ} (hok : w.OwnKeyFirst p (.host now))
    {q : Request} {rest : List Request} (hhost : w.host = .posting (q :: rest)) :
    (stepHost p w now).Inv p := by
  simp only [Meeting.stepHost, hhost]
  refine hinv.of_host (hinv.grows_send rfl rfl rfl ?_) rfl ?_ ?_ ?_
  · intro c hc
    have hnone := hinv.own _ hhost q List.mem_cons_self c hc
    refine ⟨(hok c (by rw [next, hhost]; exact hc)).1, fun hsome => ?_⟩
    rw [hnone] at hsome
    cases hsome
  · intro rest' hrest
    refine ⟨[q], ?_⟩
    simp only at hrest
    split at hrest
    · rw [hhost, HostPhase.posting.inj hrest]
      rfl
    · cases hrest
  · intro key hk
    simp only at hk
    split at hk <;> cases hk
  · intro addr ha
    simp only at ha
    split at ha <;> cases ha

/-- The host polls for a key and takes the first one that it is shown. -/
theorem Inv.stepHost_waitKey (hinv : w.Inv p) {now : ℤ} (hhost : w.host = .posting []) :
    (stepHost p w now).Inv p := by
  simp only [Meeting.stepHost, hhost]
  -- The key that the poll finds is the first one filed.
  obtain ⟨hcands, hseq, hfirst⟩ := peerCandidate_spec w.st now w.code keyTag decodeKey
  refine hinv.of_host (hinv.grows_same rfl rfl hcands hseq) rfl ?_ ?_ ?_
  · intro rest hrest
    simp only at hrest
    split at hrest
    · cases hrest
    · exact ⟨[], hhost.trans hrest⟩
  · intro key hk
    simp only at hk
    split at hk
    · rename_i key' hsome
      obtain rfl := Option.some.inj hk
      exact hfirst _ hsome
    · cases hk
  · intro addr ha
    simp only at ha
    split at ha <;> cases ha

/-- The host polls for an address and takes the first one that it is shown. -/
theorem Inv.stepHost_waitAddr (hinv : w.Inv p) {now : ℤ} {key : Bytes 32}
    (hhost : w.host = .waitAddr key) : (stepHost p w now).Inv p := by
  simp only [Meeting.stepHost, hhost]
  -- The address that the poll finds is the first one filed that is not its own.
  obtain ⟨hcands, hseq, hfirst⟩ := peerCandidate_spec w.st now w.code udpTag p.peerAddr
  have hold : ∀ k, HostPhase.key? (.waitAddr key) = some k → w.firstKey = some k := by
    rw [← hhost]
    exact hinv.key
  refine hinv.of_host (hinv.grows_same rfl rfl hcands hseq) rfl ?_ ?_ ?_
  · intro rest hrest
    simp only at hrest
    split at hrest <;> cases hrest
  · intro k hk
    simp only at hk
    split at hk <;> exact hold k hk
  · intro addr ha
    simp only at ha
    split at ha
    · rename_i addr' hsome
      obtain rfl := Option.some.inj ha
      exact hfirst _ hsome
    · cases ha

/-- The host has connected and tells the server so. It keeps its key and its address. -/
theorem Inv.stepHost_connecting (hinv : w.Inv p) {now : ℤ} {key : Bytes 32} {addr : SocketAddr}
    (hhost : w.host = .connecting key addr) : (stepHost p w now).Inv p := by
  simp only [Meeting.stepHost, hhost]
  have hold := hinv.key
  have holdAddr := hinv.addr
  rw [hhost] at hold holdAddr
  split
  · rename_i status st' heq
    simp only [AppState.postConnected, AppState.checkCode_bind] at heq
    split at heq
    · obtain ⟨-, rfl⟩ := Prod.mk.inj (Except.ok.inj heq)
      refine hinv.of_host (hinv.grows_same rfl rfl rfl rfl) rfl ?_ hold holdAddr
      intro rest hrest
      cases hrest
    · cases heq
  · exact hinv.fail

/-- A step of the host keeps the invariant. -/
theorem Inv.stepHost (hinv : w.Inv p) {now : ℤ} (hok : w.OwnKeyFirst p (.host now)) :
    (stepHost p w now).Inv p := by
  cases hhost : w.host with
  | posting requests =>
    cases requests with
    | nil => exact hinv.stepHost_waitKey hhost
    | cons q rest => exact hinv.stepHost_posting hok hhost
  | waitAddr key => exact hinv.stepHost_waitAddr hhost
  | connecting key addr => exact hinv.stepHost_connecting hhost
  | connected key addr =>
    simp only [Meeting.stepHost, hhost]
    exact hinv
  | failed =>
    simp only [Meeting.stepHost, hhost]
    exact hinv

/-- A step of the join run `i`, whose progress stays true. -/
theorem Inv.of_join (hinv : w.Inv p) {i : ℕ} (hgrows : Grows p w w') (hhost : w'.host = w.host)
    (hreq : ∀ j, j ≠ i → w'.requests j = w.requests j)
    (hprogress : w'.requests i = [] ∨ ∃ done, (p.run i).requests = done ++ w'.requests i ∧
      ∀ c, .postCandidate c ∈ done → (some i, c) ∈ w'.log) : w'.Inv p where
  filed := hgrows.filed
  progress j := by
    by_cases hj : j = i
    · subst hj
      exact hprogress
    · exact hinv.progress_same hgrows (hreq j hj)
  own rest hrest := hinv.own rest (hhost ▸ hrest)
  paired _ := hgrows.paired hinv
  key key hk := hgrows.firstKey hinv (hinv.key key (hhost ▸ hk))
  addr addr ha := hgrows.firstAddr hinv (hinv.addr addr (hhost ▸ ha))

/-- A step of a join run that meets the condition keeps the invariant. -/
theorem Inv.stepJoin (hinv : w.Inv p) {i : ℕ} {now : ℤ} (hok : w.OwnKeyFirst p (.join i now)) :
    (stepJoin w i now).Inv p := by
  unfold Meeting.stepJoin
  split
  · rename_i q rest hreq
    obtain hnil | ⟨done, hdone, hlogged⟩ := hinv.progress i
    · rw [hnil] at hreq
      cases hreq
    rw [hreq] at hdone
    -- The request is logged, and the candidate it files comes behind its own key.
    have hgrows : Grows p w
        { w with
          st := (q.send w.st now w.code).2
          requests := Function.update w.requests i
            (if (q.send w.st now w.code).1 then rest else [])
          log := record w.log (some i) q (q.send w.st now w.code).1 } := by
      refine hinv.grows_send rfl rfl rfl fun c hc => ?_
      obtain ⟨hwrap, hown⟩ := hok c (by rw [next, hreq]; exact hc)
      refine ⟨hwrap, fun hsome hfirst => ⟨i, rfl, hown hsome hfirst, hlogged _ ?_⟩⟩
      obtain rfl : q = .postCandidate c := Request.eq_postCandidate hc
      refine JoinRun.mem_done hdone ?_
      rintro rfl
      rw [candidateValue_udpTag_keyCandidate] at hsome
      cases hsome
    refine hinv.of_join hgrows rfl (fun j hj => Function.update_of_ne hj _ _) ?_
    simp only [Function.update_self]
    by_cases htrue : (q.send w.st now w.code).1
    · -- the request joins what the run has behind it
      right
      refine ⟨done ++ [q], by rw [if_pos htrue, hdone, List.append_assoc]; rfl, fun c hc => ?_⟩
      rcases List.mem_append.mp hc with hc | hc
      · exact hgrows.log_subset (hlogged c hc)
      · obtain rfl := List.mem_singleton.mp hc
        rw [htrue, record_of_some (q := .postCandidate c) rfl]
        exact List.mem_append_right _ (List.mem_singleton.mpr rfl)
    · exact .inl (if_neg htrue)
  · exact hinv

/-- A step that meets the condition keeps the invariant. -/
theorem Inv.step (w : Meeting) (e : MeetingEvent) (hinv : w.Inv p) (hok : w.OwnKeyFirst p e) :
    (step p w e).Inv p := by
  cases e with
  | host now => exact hinv.stepHost hok
  | timeout =>
    simp only [Meeting.step]
    split
    · exact hinv.fail
    · exact hinv.fail
    · exact hinv
  | join i now => exact hinv.stepJoin hok

/-- In every run whose steps all meet the condition, from a session whose code has no candidates,
the host connects with the key and the address of one join run. -/
theorem paired_of_ownKeyFirst (p : Parties) (st : AppState) (now : ℤ) (es : List MeetingEvent)
    (hfresh : st.pendingCandidates (formatCode st.codeSeq) = [])
    (hes : Guarded (step p) (OwnKeyFirst p) (start p st now) es) :
    (run (step p) (start p st now) es).Paired p :=
  (run_invariant Inv.step hes (Inv.start p st now hfresh)).paired_host

/-- Whether a step meets the condition can be decided. -/
instance (p : Parties) (w : Meeting) : ∀ e, Decidable (w.OwnKeyFirst p e)
  | .host now => inferInstanceAs (Decidable (∀ c ∈ (w.next (.host now)).bind Request.candidate?,
      w.st.candSeq + 1 < 2 ^ 64 ∧ True))
  | .timeout => inferInstanceAs (Decidable (∀ c ∈ (w.next .timeout).bind Request.candidate?,
      w.st.candSeq + 1 < 2 ^ 64 ∧ True))
  | .join i now => inferInstanceAs (Decidable
      (∀ c ∈ (w.next (.join i now)).bind Request.candidate?, w.st.candSeq + 1 < 2 ^ 64 ∧
        ((candidateValue udpTag p.peerAddr c).isSome → w.firstAddr p = none →
          w.firstKey = some (p.run i).key)))

/-! ### Two joiners -/

/-- A host and join runs with keys and ports of their own, without STUN servers. -/
def sampleParties : Parties where
  host := ⟨⟨0, 0, 0, 0, 5000⟩, none⟩
  run i := ⟨⟨⟨0, 0, 0, 0, .ofNat (6000 + i)⟩, none⟩, Bytes.fill 32 (.ofNat i)⟩
  parseV6 _ := none

/-- The host posts its offer and its address. -/
def hostPosts : List MeetingEvent := [.host 0, .host 0]

/-- The run in which a joiner posts its key, its address and its answer while the host polls. -/
def oneJoiner : List MeetingEvent :=
  hostPosts ++ [.join 0 0, .join 0 0, .host 0, .join 0 0, .join 0 0, .host 0]

/-- The host connects to the one joiner with its key. -/
theorem paired_one_joiner :
    (run (step sampleParties) (start sampleParties .empty 0) oneJoiner).host.addr? =
        some ⟨[0, 0, 0, 0], 6000⟩ ∧
      (run (step sampleParties) (start sampleParties .empty 0) oneJoiner).Paired sampleParties :=
  ⟨by decide +kernel, paired_of_ownKeyFirst _ _ _ _ (by decide +kernel) (by decide +kernel)⟩

/-- The run in which a joiner stops after its key, another one joins with a key and an address, and
the host polls both. -/
def stoppedJoin : List MeetingEvent :=
  hostPosts ++ [.join 0 0, .join 0 0, .join 1 0, .join 1 0, .join 1 0, .host 0, .host 0]

/-- After a joiner that stopped, the host connects with its key to the address of the next one. -/
theorem not_paired_after_stopped_join :
    ¬ ∀ (p : Parties) (st : AppState) (now : ℤ) (es : List MeetingEvent),
      st.pendingCandidates (formatCode st.codeSeq) = [] →
        (run (step p) (start p st now) es).Paired p := by
  intro h
  have hpaired := h sampleParties .empty 0 stoppedJoin (by decide +kernel)
  obtain ⟨i, ⟨k, hk, hkey⟩, ⟨a, ha, haddr⟩⟩ := hpaired (Bytes.fill 32 0) ⟨[0, 0, 0, 0], 6001⟩
    (by decide +kernel) (by decide +kernel)
  have hlog : (run (step sampleParties) (start sampleParties .empty 0) stoppedJoin).log =
      [(none, udpTag ++ SocketAddrV4.display ⟨0, 0, 0, 0, 5000⟩),
        (some 0, (sampleParties.run 0).keyCandidate), (some 1, (sampleParties.run 1).keyCandidate),
        (some 1, udpTag ++ SocketAddrV4.display ⟨0, 0, 0, 0, 6001⟩)] := by
    decide +kernel
  rw [hlog] at hk ha
  simp only [List.mem_cons, List.not_mem_nil, or_false, Prod.mk.injEq, Option.some.injEq,
    reduceCtorEq, false_and, false_or] at hk ha
  -- the second joiner did not publish the key, and the first one published no address
  have hone : i = 1 := by
    rcases ha with ⟨-, rfl⟩ | ⟨hi, -⟩ | ⟨hi, -⟩
    · rw [candidateValue_udpTag_keyCandidate] at haddr
      cases haddr
    · exact hi
    · exact hi
  rcases hk with ⟨hi, -⟩ | ⟨-, rfl⟩ | ⟨-, rfl⟩
  · omega
  · rw [candidateValue_keyCandidate] at hkey
    exact absurd hkey (by decide +kernel)
  · exact absurd hkey (by decide +kernel)

end Meeting

end LowBand.Lowbandd
