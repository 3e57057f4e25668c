import LowBand.Lib.Run
import LowBand.Lowbandd.Inbound
import LowBand.Messaging.Clipboard

/-!
# The router

`InboundRouter::handle` of `inbound.rs` and `dispatch` of `dataplane.rs`: all that a peer's session
receives, datagram by datagram. Messages go through the gate of their subsystem, file frames to the
file receiver, screen frames to the frame buffer and voice frames to the codec.

The subsystems share one socket and one thread. A datagram changes the state of its own channel only
(`receive_other`) and does there what the state of this channel makes it do (`receive_own`), so
however the datagrams of the channels are interleaved, each channel ends as if only its own had
arrived, and reports the same (`channels_independent`). The thread itself is shared: a screen frame
that makes the frame buffer panic takes the other channels down with it, and nothing else does.

A file that is sent while messages, screen and voice frames go over the same session therefore
arrives exactly when it would arrive alone (`session_carries_file`).
-/

namespace LowBand.Lowbandd

open Lib Messaging Xfer

/-! ## Dispatch -/

/-- `Delivered`. -/
inductive Delivered where
  /-- A chat message. -/
  | chat (text : String)
  /-- Clipboard text under a live grant. -/
  | clipboardText (text : String)
  /-- An offer of so many clipboard files under a live grant. -/
  | clipboardFiles (count : ℕ)
  /-- A panic notice, which severed control or was seen before. -/
  | panic (severed : Bool)
  /-- The gate refused the frame, for a reason. -/
  | rejected (reason : String)
deriving DecidableEq

/-- `dispatch`: what a frame did, and the control session, the controller and the receiver of
notices after it. -/
def dispatch (frame : MessageFrame) (withdrawn : Withdrawn) (clipboard : ClipboardSession)
    (control : ControlSession) (panic : PanicController) (panicRx : PanicNoticeReceiver) :
    Delivered × ControlSession × PanicController × PanicNoticeReceiver :=
  match frame with
  | .chat text => (.chat text, control, panic, panicRx)
  | .clipboardText text =>
    match clipboard.applyRemote withdrawn text with
    | .ok () => (.clipboardText text, control, panic, panicRx)
    | .error _ => (.rejected "clipboard text rejected", control, panic, panicRx)
  | .clipboardFiles offer =>
    match clipboard.applyRemoteFiles withdrawn offer with
    | .ok () => (.clipboardFiles offer.entries.length, control, panic, panicRx)
    | .error _ => (.rejected "clipboard files rejected", control, panic, panicRx)
  | .panic notice =>
    let (severed, panicRx, control, panic) := panicRx.apply notice control panic
    (.panic severed, control, panic, panicRx)

/-! ## The router -/

/-- `Handled`. -/
inductive Handled where
  /-- A message was dispatched. -/
  | message (delivered : Delivered)
  /-- A file frame was applied. -/
  | file (progress : Progress)
  /-- A screen frame was applied, and completed the picture or not. -/
  | screen (complete : Bool)
  /-- A voice frame was decoded to so many samples. -/
  | voice (samples : ℕ)
  /-- No channel has this kind. -/
  | unknown (kind : UInt8)
deriving DecidableEq

/-- `InboundRouter`. -/
structure InboundRouter where
  /-- The clipboard gateway. -/
  clipboard : ClipboardSession
  /-- The control session. -/
  control : ControlSession
  /-- The panic controller. -/
  panic : PanicController
  /-- The receiver of panic notices. -/
  panicRx : PanicNoticeReceiver
  /-- The file receiver. -/
  files : FileReceiver
  /-- The frame buffer. -/
  screen : ScreenReceiver
  /-- The last complete picture. -/
  lastScreen : Option (List UInt8)
  /-- The voice codec. -/
  voice : VoiceReceiver
  /-- The last voice frame decoded. -/
  lastVoice : Option (List Int16)

/-- `InboundRouter::new`. -/
def InboundRouter.new (files : FileReceiver) : InboundRouter where
  clipboard := .new
  control := .new
  panic := .new
  panicRx := .new
  files := files
  screen := .new
  lastScreen := none
  voice := .new
  lastVoice := none

section

variable (picture : PictureCodec) (hash : List UInt8 → ChunkHash)

/-- `InboundRouter::handle`, on the two files of the file receiver and with what the revocation
flags show: the result, and the router and the files after it; `none` when it panics. -/
def InboundRouter.handle (r : InboundRouter) (disk : Files) (withdrawn : Withdrawn)
    (bytes : List UInt8) : Option (Except XferError Handled × InboundRouter × Files) :=
  match classify bytes with
  | .message =>
    match MessageFrame.decode bytes with
    | .ok frame =>
      let (delivered, control, panic, panicRx) :=
        dispatch frame withdrawn r.clipboard r.control r.panic r.panicRx
      some (.ok (.message delivered), { r with control, panic, panicRx }, disk)
    -- A message that does not decode is dropped, not an error of the session.
    | .error _ => some (.ok (.message (.rejected "undecodable message")), r, disk)
  | .file =>
    match XferFrame.decode bytes with
    | .error e => some (.error e, r, disk)
    | .ok frame =>
      let applied := r.files.apply hash disk frame
      some (applied.result.map .file, { r with files := applied.rx }, applied.files)
  | .screen =>
    match ScreenFrame.decode bytes with
    | .error _ => some (.error .truncated, r, disk)
    | .ok frame =>
      match r.screen.apply picture frame with
      | none => none
      | some (.error _, screen) => some (.error .truncated, { r with screen }, disk)
      | some (.ok done, screen) =>
        some (.ok (.screen done.isSome), { r with screen, lastScreen := done.or r.lastScreen },
          disk)
  | .voice =>
    match VoiceFrame.decode bytes with
    | none => some (.error .truncated, r, disk)
    | some frame =>
      let (pcm, voice) := r.voice.decode frame
      some (.ok (.voice pcm.length), { r with voice, lastVoice := some pcm }, disk)
  | .unknown kind => some (.ok (.unknown kind), r, disk)

/-- A router and the two files of its file receiver. -/
structure Inbox where
  /-- The router. -/
  router : InboundRouter
  /-- The destination and the sidecar. -/
  disk : Files

/-- A datagram that is handled, and what the revocation flags show then. -/
structure Delivery where
  /-- The datagram. -/
  bytes : List UInt8
  /-- The revocation flags. -/
  withdrawn : Withdrawn

/-- The channel of a delivery. -/
def Delivery.channel (e : Delivery) : Channel := classify e.bytes

/-- A datagram is handled: what is reported on which channel. The inbox is gone (`none`) after a
panic. -/
def receive : Machine (Option Inbox) Delivery (Channel × Except XferError Handled)
  | none, _ => ([], none)
  | some p, e =>
    match p.router.handle picture hash p.disk e.withdrawn e.bytes with
    | none => ([], none)
    | some (result, router, disk) => ([(e.channel, result)], some ⟨router, disk⟩)

/-! ## One datagram -/

/-- A message datagram. -/
def recvMessage (withdrawn : Withdrawn) (clipboard : ClipboardSession) (control : ControlSession)
    (panic : PanicController) (panicRx : PanicNoticeReceiver) (bytes : List UInt8) :
    Delivered × ControlSession × PanicController × PanicNoticeReceiver :=
  match MessageFrame.decode bytes with
  | .ok frame => dispatch frame withdrawn clipboard control panic panicRx
  | .error _ => (.rejected "undecodable message", control, panic, panicRx)

/-- A file datagram. -/
def recvFile (files : FileReceiver) (disk : Files) (bytes : List UInt8) :
    Except XferError Progress × FileReceiver × Files :=
  match XferFrame.decode bytes with
  | .error e => (.error e, files, disk)
  | .ok frame =>
    let applied := files.apply hash disk frame
    (applied.result, applied.rx, applied.files)

/-- A screen datagram, with the last complete picture. -/
def recvScreen (screen : ScreenReceiver) (last : Option (List UInt8)) (bytes : List UInt8) :
    Option (Except XferError Bool × ScreenReceiver × Option (List UInt8)) :=
  match ScreenFrame.decode bytes with
  | .error _ => some (.error .truncated, screen, last)
  | .ok frame =>
    (screen.apply picture frame).map fun
      | (.error _, screen) => (.error .truncated, screen, last)
      | (.ok done, screen) => (.ok done.isSome, screen, done.or last)

/-- A voice datagram, with the last voice frame decoded. -/
def recvVoice (voice : VoiceReceiver) (last : Option (List Int16)) (bytes : List UInt8) :
    Except XferError ℕ × VoiceReceiver × Option (List Int16) :=
  match VoiceFrame.decode bytes with
  | none => (.error .truncated, voice, last)
  | some frame => (.ok (voice.decode frame).1.length, (voice.decode frame).2,
      some (voice.decode frame).1)

variable {picture} {hash} {p : Inbox} {e : Delivery}

/-- A message goes to the clipboard, the control session and the panic key. -/
theorem receive_message (h : e.channel = .message) :
    receive picture hash (some p) e =
      let (delivered, control, panic, panicRx) := recvMessage e.withdrawn p.router.clipboard
        p.router.control p.router.panic p.router.panicRx e.bytes
      ([(.message, .ok (.message delivered))],
        some ⟨{ p.router with control, panic, panicRx }, p.disk⟩) := by
  have hch : classify e.bytes = .message := h
  simp only [receive, InboundRouter.handle, hch, recvMessage, h]
  cases MessageFrame.decode e.bytes <;> rfl

/-- A file frame goes to the receiver of files and to the disk. -/
theorem receive_file (h : e.channel = .file) :
    receive picture hash (some p) e =
      let (result, files, disk) := recvFile hash p.router.files p.disk e.bytes
      ([(.file, result.map .file)], some ⟨{ p.router with files }, disk⟩) := by
  have hch : classify e.bytes = .file := h
  simp only [receive, InboundRouter.handle, hch, recvFile, h]
  cases XferFrame.decode e.bytes <;> rfl

/-- A screen frame goes to the screen, which may panic. -/
theorem receive_screen (h : e.channel = .screen) :
    receive picture hash (some p) e =
      match recvScreen picture p.router.screen p.router.lastScreen e.bytes with
      | none => ([], none)
      | some (result, screen, lastScreen) =>
        ([(.screen, result.map .screen)], some ⟨{ p.router with screen, lastScreen }, p.disk⟩) := by
  have hch : classify e.bytes = .screen := h
  simp only [receive, InboundRouter.handle, hch, recvScreen, h]
  cases ScreenFrame.decode e.bytes with
  | error err => rfl
  | ok frame =>
    dsimp only
    rcases p.router.screen.apply picture frame with _ | ⟨_ | done, screen⟩ <;> rfl

/-- A voice frame goes to the receiver of voice. -/
theorem receive_voice (h : e.channel = .voice) :
    receive picture hash (some p) e =
      let (result, voice, lastVoice) := recvVoice p.router.voice p.router.lastVoice e.bytes
      ([(.voice, result.map .voice)], some ⟨{ p.router with voice, lastVoice }, p.disk⟩) := by
  have hch : classify e.bytes = .voice := h
  simp only [receive, InboundRouter.handle, hch, recvVoice, h]
  cases VoiceFrame.decode e.bytes <;> rfl

/-- A frame of an unknown kind changes nothing. -/
theorem receive_unknown {kind : UInt8} (h : e.channel = .unknown kind) :
    receive picture hash (some p) e = ([(.unknown kind, .ok (.unknown kind))], some p) := by
  have hch : classify e.bytes = .unknown kind := h
  simp only [receive, InboundRouter.handle, hch, h]

/-! ## Independence -/

namespace Inbox

/-- Two inboxes have the same state of a channel. -/
def SameFor : Channel → Inbox → Inbox → Prop
  | .message, p, q => p.router.clipboard = q.router.clipboard ∧
    p.router.control = q.router.control ∧ p.router.panic = q.router.panic ∧
    p.router.panicRx = q.router.panicRx
  | .file, p, q => p.router.files = q.router.files ∧ p.disk = q.disk
  | .screen, p, q => p.router.screen = q.router.screen ∧ p.router.lastScreen = q.router.lastScreen
  | .voice, p, q => p.router.voice = q.router.voice ∧ p.router.lastVoice = q.router.lastVoice
  | .unknown _, _, _ => True

/-- An inbox is the same as itself for every channel. -/
theorem SameFor.refl (ch : Channel) (p : Inbox) : p.SameFor ch p := by
  cases ch <;> simp [SameFor]

/-- What two steps leave, both leave. -/
theorem SameFor.trans {ch : Channel} {p q r : Inbox} (h : p.SameFor ch q)
    (h' : q.SameFor ch r) : p.SameFor ch r := by
  cases ch with
  | message =>
    obtain ⟨h₁, h₂, h₃, h₄⟩ := h
    obtain ⟨h₁', h₂', h₃', h₄'⟩ := h'
    exact ⟨h₁.trans h₁', h₂.trans h₂', h₃.trans h₃', h₄.trans h₄'⟩
  | file | screen | voice => exact ⟨h.1.trans h'.1, h.2.trans h'.2⟩
  | unknown kind => trivial

end Inbox

/-- Only a screen frame brings an inbox down, and it does so whatever the other channels are. -/
theorem receive_down (h : (receive picture hash (some p) e).2 = none) :
    e.channel = .screen ∧
      ∀ t, p.SameFor .screen t → (receive picture hash (some t) e).2 = none := by
  cases hch : e.channel with
  | message => rw [receive_message hch] at h; cases h
  | file => rw [receive_file hch] at h; cases h
  | voice => rw [receive_voice hch] at h; cases h
  | unknown kind => rw [receive_unknown hch] at h; cases h
  | screen =>
    refine ⟨rfl, ?_⟩
    rintro t ⟨hscreen, hlast⟩
    rw [receive_screen hch] at h ⊢
    rw [← hscreen, ← hlast]
    cases hrecv : recvScreen picture p.router.screen p.router.lastScreen e.bytes with
    | none => rfl
    | some r => rw [hrecv] at h; cases h

/-- A datagram changes no other channel and reports nothing on it. -/
theorem receive_other {ch : Channel} (hch : e.channel ≠ ch) {q : Inbox}
    (h : (receive picture hash (some p) e).2 = some q) :
    q.SameFor ch p ∧ ∀ r ∈ (receive picture hash (some p) e).1, r.1 ≠ ch := by
  -- Each channel writes its own part of the inbox.
  cases he : e.channel with
  | message =>
    rw [receive_message he] at h ⊢
    obtain rfl := Option.some.inj h
    refine ⟨?_, by simpa [he] using hch⟩
    cases ch <;> simp_all [Inbox.SameFor]
  | file =>
    rw [receive_file he] at h ⊢
    obtain rfl := Option.some.inj h
    refine ⟨?_, by simpa [he] using hch⟩
    cases ch <;> simp_all [Inbox.SameFor]
  | voice =>
    rw [receive_voice he] at h ⊢
    obtain rfl := Option.some.inj h
    refine ⟨?_, by simpa [he] using hch⟩
    cases ch <;> simp_all [Inbox.SameFor]
  | unknown kind =>
    rw [receive_unknown he] at h ⊢
    obtain rfl := Option.some.inj h
    exact ⟨.refl ch p, by simpa [he] using hch⟩
  -- A picture that cannot be decoded ends the session, which `h` rules out.
  | screen =>
    rw [receive_screen he] at h ⊢
    cases hrecv : recvScreen picture p.router.screen p.router.lastScreen e.bytes with
    | none => rw [hrecv] at h; cases h
    | some r =>
      rw [hrecv] at h
      obtain rfl := Option.some.inj h
      refine ⟨?_, by simpa [he] using hch⟩
      cases ch <;> simp_all [Inbox.SameFor]

/-- What a datagram does to its own channel depends on this channel alone. -/
theorem receive_own {t q : Inbox} (hsame : p.SameFor e.channel t)
    (h : (receive picture hash (some p) e).2 = some q) :
    ∃ q', (receive picture hash (some t) e).2 = some q' ∧ q.SameFor e.channel q' ∧
      (receive picture hash (some p) e).1 = (receive picture hash (some t) e).1 := by
  -- Each channel reads and writes its own part only.
  cases he : e.channel with
  | message =>
    rw [he] at hsame
    obtain ⟨h₁, h₂, h₃, h₄⟩ := hsame
    rw [receive_message he] at h ⊢
    obtain rfl := Option.some.inj h
    rw [receive_message he, h₁, h₂, h₃, h₄]
    exact ⟨_, rfl, ⟨h₁, rfl, rfl, rfl⟩, rfl⟩
  | file =>
    rw [he] at hsame
    obtain ⟨h₁, h₂⟩ := hsame
    rw [receive_file he] at h ⊢
    obtain rfl := Option.some.inj h
    rw [receive_file he, h₁, h₂]
    exact ⟨_, rfl, ⟨rfl, rfl⟩, rfl⟩
  | voice =>
    rw [he] at hsame
    obtain ⟨h₁, h₂⟩ := hsame
    rw [receive_voice he] at h ⊢
    obtain rfl := Option.some.inj h
    rw [receive_voice he, h₁, h₂]
    exact ⟨_, rfl, ⟨rfl, rfl⟩, rfl⟩
  | unknown kind =>
    rw [receive_unknown he] at h ⊢
    rw [receive_unknown he]
    exact ⟨t, rfl, trivial, rfl⟩
  | screen =>
    rw [he] at hsame
    obtain ⟨h₁, h₂⟩ := hsame
    rw [receive_screen he] at h ⊢
    rw [receive_screen he, ← h₁, ← h₂]
    cases hrecv : recvScreen picture p.router.screen p.router.lastScreen e.bytes with
    | none => rw [hrecv] at h; cases h
    | some r =>
      rw [hrecv] at h
      obtain rfl := Option.some.inj h
      exact ⟨_, rfl, ⟨rfl, rfl⟩, rfl⟩

/-! ## Runs -/

variable {es : List Delivery}

/-- What a run that goes through to the end does to a channel is what its datagrams do alone. -/
theorem finish_alone (ch : Channel) {q : Inbox}
    (hq : (receive picture hash).finish (some p) es = some q) :
    ∃ q', (receive picture hash).finish (some p) (es.filter (·.channel == ch)) = some q' ∧
      q.SameFor ch q' ∧
      ((receive picture hash).emitted (some p) es).filter (·.1 == ch) =
        ((receive picture hash).emitted (some p) (es.filter (·.channel == ch))).filter
          (·.1 == ch) := by
  refine Machine.alone_of_survives (Inbox.SameFor ch) _ _ (fun _ => rfl) ?_ ?_ (.refl ch p) hq
  · intro e he s q hs
    have hch : e.channel ≠ ch := by simpa using he
    obtain ⟨hsame, hout⟩ := receive_other hch hs
    refine ⟨fun t ht => hsame.trans ht, List.filter_eq_nil_iff.mpr ?_⟩
    intro r hr
    simpa using hout r hr
  · intro e he s t q hsame hs
    obtain rfl : e.channel = ch := by simpa using he
    obtain ⟨q', hq', hafter, hout⟩ := receive_own hsame hs
    exact ⟨q', hq', hafter, by rw [hout]⟩

/-- The inbox goes down exactly when the screen datagrams alone bring it down. -/
theorem down_iff :
    (receive picture hash).finish (some p) es = none ↔
      (receive picture hash).finish (some p) (es.filter (·.channel == .screen)) = none := by
  constructor
  · intro hdown
    -- The crash is caused by a screen frame, which the run of that channel has too.
    obtain ⟨pre, e, post, q, rfl, hq, he⟩ := Machine.exists_crash hdown
    obtain ⟨q', hq', hsame, -⟩ := finish_alone .screen hq
    obtain ⟨hch, hcrash⟩ := receive_down he
    rw [List.filter_append, List.filter_cons_of_pos (by simpa using hch), Machine.finish_append,
      hq']
    change (receive picture hash).finish (receive picture hash (some q') e).2 _ = none
    rw [hcrash q' hsame]
    exact Machine.finish_none (fun _ => rfl) _
  · intro hdown
    -- The run of one channel goes the way the whole run does.
    cases hq : (receive picture hash).finish (some p) es with
    | none => rfl
    | some q =>
      obtain ⟨q', hq', -⟩ := finish_alone .screen hq
      rw [hq'] at hdown
      cases hdown

/-- The four channels of a session share a socket and a thread. Whatever datagrams arrive and in
whatever order, the session goes down exactly when its screen datagrams alone bring it down, and if
it does not, each channel ends in the state, and has reported, what its own datagrams alone lead
to. -/
theorem channels_independent (picture : PictureCodec) (hash : List UInt8 → ChunkHash)
    (p : Inbox) (es : List Delivery) :
    ((receive picture hash).finish (some p) es = none ↔
        (receive picture hash).finish (some p) (es.filter (·.channel == .screen)) = none) ∧
      ∀ q, (receive picture hash).finish (some p) es = some q → ∀ ch,
        ∃ q', (receive picture hash).finish (some p) (es.filter (·.channel == ch)) = some q' ∧
          q.SameFor ch q' ∧
          ((receive picture hash).emitted (some p) es).filter (·.1 == ch) =
            ((receive picture hash).emitted (some p) (es.filter (·.channel == ch))).filter
              (·.1 == ch) :=
  ⟨down_iff, fun _ hq ch => finish_alone ch hq⟩

/-! ## A file among other traffic -/

/-- A datagram that holds a file frame within the caps. -/
theorem receive_fileFrame {frame : XferFrame} (hcaps : frame.WithinCaps)
    (he : e.bytes = frame.encode) :
    receive picture hash (some p) e =
      let applied := p.router.files.apply hash p.disk frame
      ([(.file, applied.result.map .file)],
        some ⟨{ p.router with files := applied.rx }, applied.files⟩) := by
  have hch : e.channel = .file := by rw [Delivery.channel, he, file_unambiguous.routed]
  have hdecode : XferFrame.decode e.bytes = .ok frame :=
    XferFrame.decode_ok.mpr ⟨hcaps, he ▸ List.prefix_refl _⟩
  rw [receive_file hch, recvFile, hdecode]

/-- What is reported of a datagram is reported on its channel. -/
theorem channel_of_mem_receive {s : Option Inbox} {r : Channel × Except XferError Handled}
    (h : r ∈ (receive picture hash s e).1) : r.1 = e.channel := by
  unfold receive at h
  split at h
  · cases h
  · split at h
    · cases h
    · rw [List.mem_singleton.mp h]

/-- What is reported of the datagrams of one channel is reported on this channel. -/
theorem filter_emitted_alone {s : Option Inbox} (ch : Channel) :
    ((receive picture hash).emitted s (es.filter (·.channel == ch))).filter (·.1 == ch) =
      (receive picture hash).emitted s (es.filter (·.channel == ch)) := by
  rw [List.filter_eq_self]
  intro r hr
  obtain ⟨pre, e, post, hes, hr⟩ := Machine.mem_emitted_iff.mp hr
  have he : e ∈ es.filter (·.channel == ch) := by simp [hes]
  rw [channel_of_mem_receive hr]
  exact (List.mem_filter.mp he).2

/-- File frames that arrive alone are applied one after another, and the last report is the result
of the last one; `result` stands for that of none. -/
theorem finish_fileFrames {frames : List XferFrame} (hcaps : ∀ f ∈ frames, f.WithinCaps)
    (hes : es.map Delivery.bytes = frames.map XferFrame.encode)
    (result : Except XferError Progress) :
    let a := FileReceiver.feed hash ⟨result, p.router.files, p.disk⟩ frames
    (receive picture hash).finish (some p) es =
        some ⟨{ p.router with files := a.rx }, a.files⟩ ∧
      ((.file, result.map .file) :: (receive picture hash).emitted (some p) es).getLast? =
        some (.file, a.result.map .file) := by
  -- By induction on the frames: each is decoded to itself and applied.
  induction frames generalizing p es result with
  | nil =>
    obtain rfl := List.map_eq_nil_iff.mp hes
    exact ⟨rfl, rfl⟩
  | cons f frames ih =>
    obtain ⟨e, es, rfl, he, hes⟩ := List.map_eq_cons_iff.mp hes
    obtain ⟨hf, hcaps⟩ := List.forall_mem_cons.mp hcaps
    have hstep : receive picture hash (some p) e = _ := receive_fileFrame hf he
    let applied := p.router.files.apply hash p.disk f
    obtain ⟨hlast, hreport⟩ := ih (p := ⟨{ p.router with files := applied.rx }, applied.files⟩)
      hcaps hes applied.result
    constructor
    · change (receive picture hash).finish (receive picture hash (some p) e).2 es = _
      rw [hstep]
      exact hlast
    · rw [Machine.emitted, hstep]
      exact hreport

/-- The frames of a file that arrive alone: the destination and the last report after them. -/
theorem finish_sendFile {name data : List UInt8}
    (hcaps : ∀ f ∈ sendFile hash name data, f.WithinCaps)
    (hes : es.map Delivery.bytes = (sendFile hash name data).map XferFrame.encode) :
    let a := FileReceiver.feed hash ⟨.ok .duplicate, p.router.files, p.disk⟩
      (sendFile hash name data)
    (∀ q, (receive picture hash).finish (some p) es = some q → q.disk = a.files) ∧
      ((receive picture hash).emitted (some p) es).getLast? =
        some (.file, a.result.map .file) := by
  intro a
  -- The router applies the frames one by one, as `feed` does.
  obtain ⟨hlast, hreport⟩ :=
    finish_fileFrames (p := p) hcaps hes (.ok .duplicate)
  constructor
  · intro q hq
    obtain rfl := Option.some.inj (hq.symm.trans hlast)
    rfl
  · -- A file has an offer at least, so the last report is one of those that came.
    have hne : (receive picture hash).emitted (some p) es ≠ [] := by
      obtain ⟨e, es, rfl, he, -⟩ := List.map_eq_cons_iff.mp hes
      have hoffer := (List.forall_mem_cons.mp hcaps).1
      rw [Machine.emitted, receive_fileFrame hoffer he]
      exact List.cons_ne_nil _ _
    obtain ⟨r, rs, hout⟩ := List.exists_cons_of_ne_nil hne
    rw [hout, List.getLast?_cons_cons] at hreport
    rw [hout]
    exact hreport

/-- The frames of a file with a text name and at most 2^20 fragments are within the caps. -/
theorem withinCaps_of_mem_sendFile {name : String} {data : List UInt8}
    (hname : (strBytes name).length < 2 ^ 16)
    (hdata : (chunks fragmentLen data).length ≤ maxFragments) :
    ∀ f ∈ sendFile hash (strBytes name) data, f.WithinCaps := by
  rw [sendFile_eq]
  intro f hf
  simp only [List.mem_cons, List.mem_append, List.mem_map, List.not_mem_nil, or_false] at hf
  obtain rfl | ⟨i, -, rfl⟩ | rfl := hf
  · refine ⟨⟨name, rfl⟩, hname, ?_⟩
    show ((chunks fragmentLen data).map hash).length ≤ maxFragments
    rw [List.length_map]
    exact hdata
  · exact length_chunk_le fragmentLen i data
  · trivial

/-- Frames of a file that are applied one after another, from any receiver. -/
theorem feed_sendFile_iff {name data : List UInt8}
    (hdata : (chunks fragmentLen data).length ≤ maxFragments) (start : Applied) :
    let a := FileReceiver.feed hash start (sendFile hash name data)
    a.result = .ok .complete ∧ a.files.dst = some data ↔
      ∀ i ∈ recorded hash name data start.files,
        chunk fragmentLen i (sized data start.files) = chunk fragmentLen i data := by
  have hn : (chunks fragmentLen data).length ≤ 2 ^ 32 := hdata.trans (by decide)
  have hlen : data.length < 2 ^ 63 := by
    rw [length_chunks, maxFragments, fragmentLen] at hdata
    omega
  have hoffer := apply_offerOf hash name hlen start.rx start.files
  have hall := feed_fragments hn hoffer _ le_rfl
  rw [sendFile_eq, FileReceiver.feed, List.foldl_cons, List.foldl_append]
  exact apply_complete_of_received hall

/-- A file is sent over a session that carries messages, screen frames and voice frames as well, in
any order. If the session is up after it, the file has arrived and this is the last that was
reported of it exactly when each fragment that the sidecar had on record was in the destination;
nothing that is sent beside the file matters. -/
theorem session_carries_file (picture : PictureCodec) (hash : List UInt8 → ChunkHash)
    (p q : Inbox) (es : List Delivery) (name : String) (data : List UInt8)
    (hname : (strBytes name).length < 2 ^ 16)
    (hdata : (chunks fragmentLen data).length ≤ maxFragments)
    (hsent : (es.filter (·.channel == .file)).map Delivery.bytes =
      (sendFile hash (strBytes name) data).map XferFrame.encode)
    (hq : (receive picture hash).finish (some p) es = some q) :
    (((receive picture hash).emitted (some p) es).filter (·.1 == .file)).getLast? =
        some (.file, .ok (.file .complete)) ∧ q.disk.dst = some data ↔
      ∀ i ∈ recorded hash (strBytes name) data p.disk,
        chunk fragmentLen i (sized data p.disk) = chunk fragmentLen i data := by
  -- The other channels do not touch the file, so its frames alone decide.
  obtain ⟨q', hq', ⟨-, hdisk⟩, hreports⟩ := finish_alone .file hq
  have hcaps : ∀ f ∈ sendFile hash (strBytes name) data, f.WithinCaps :=
    withinCaps_of_mem_sendFile hname hdata
  obtain ⟨hfiles, hlast⟩ := finish_sendFile (p := p) hcaps hsent
  rw [hreports, filter_emitted_alone, hlast, hdisk, hfiles q' hq']
  refine Iff.trans (and_congr_left' ?_)
    (feed_sendFile_iff hdata ⟨.ok .duplicate, p.router.files, p.disk⟩)
  cases (FileReceiver.feed hash _ (sendFile hash (strBytes name) data)).result <;>
    simp [Except.map]

/-- A codec that decodes no tile. -/
def noTiles : PictureCodec := ⟨id, fun _ => none⟩

/-- The datagrams of a one-byte file, with a chat message and a voice frame between its offer and
its fragment. -/
def busySession : List Delivery :=
  let file := (sendFile prefixHash (strBytes "f") [1]).map XferFrame.encode
  (file.take 1 ++ [(MessageFrame.chat "hi").encode, VoiceFrame.encode (.sid 0)] ++
    file.drop 1).map (⟨·, fun _ => false⟩)

/-- The byte arrives. -/
theorem session_carries_byte :
    ∃ q, (receive noTiles prefixHash).finish (some ⟨.new .new, ⟨none, none⟩⟩) busySession =
      some q ∧ q.disk.dst = some [1] := by
  have hscreen : busySession.filter (·.channel == .screen) = [] :=
    List.isEmpty_iff.mp (by decide +kernel)
  obtain ⟨q, hq⟩ : ∃ q, (receive noTiles prefixHash).finish
      (some ⟨.new .new, ⟨none, none⟩⟩) busySession = some q := by
    rw [← Option.ne_none_iff_exists', ne_eq, down_iff, hscreen]
    exact Option.some_ne_none _
  have harrives := (session_carries_file noTiles prefixHash _ q busySession "f" [1]
    (by decide +kernel) (by decide +kernel) (by decide +kernel) hq).mpr (by decide +kernel)
  exact ⟨q, hq, harrives.2⟩

end

end LowBand.Lowbandd
