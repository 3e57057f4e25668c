import LowBand.Lib.Run
import LowBand.Messaging.Wire
import Mathlib.Data.List.Basic

/-!
# The reliable channel and the chat

`channel.rs` frames a clipboard or chat text: a type byte, a length of four bytes, and the text
compressed with zstd. `chat.rs` queues the messages that are sent. zstd is a parameter: `Zstd` has
its two functions and what its documentation says of them.

`decode_eq_ok` says which frames are decoded to a message. So a text survives the channel exactly
when it and its compressed form are within the limit, and a frame is never taken for another message
(`encode_decode_iff`). Chat texts are far below the limit: whatever is accepted arrives, each
message once and in order, in frames of at most 325 bytes (`chat_arrives`).
-/

namespace LowBand.Messaging

open Lib

/-! ## Frames -/

/-- `TYPE_CLIPBOARD`. -/
def typeClipboard : UInt8 := 0x01

/-- `TYPE_CHAT`. -/
def typeChat : UInt8 := 0x02

/-- `MAX_BODY_LEN`. -/
def maxBodyLen : ℕ := 64 * 1024 * 1024

/-- The most bytes that `n` bytes are compressed to, `ZSTD_COMPRESSBOUND`. -/
def compressBound (n : ℕ) : ℕ :=
  n + n / 256 + if n < 128 * 1024 then (128 * 1024 - n) / 2048 else 0

/-- `zstd::bulk` at level 3, with the text of its errors. -/
structure Zstd where
  /-- Compression. -/
  compress : List UInt8 → Except String (List UInt8)
  /-- Decompression to so many bytes at most. -/
  decompress : List UInt8 → ℕ → Except String (List UInt8)
  /-- What was compressed is decompressed, when there is room. -/
  decompress_compress : ∀ data body capacity, compress data = .ok body →
    data.length ≤ capacity → decompress body capacity = .ok data
  /-- No more is decompressed than there is room for. -/
  length_decompress : ∀ body capacity data, decompress body capacity = .ok data →
    data.length ≤ capacity
  /-- More room changes nothing. -/
  decompress_mono : ∀ body capacity more data, decompress body capacity = .ok data →
    capacity ≤ more → decompress body more = .ok data
  /-- The bound on what is compressed. -/
  length_compress : ∀ data body, compress data = .ok body →
    body.length ≤ compressBound data.length

/-- Storing the bytes as they are is such a compression. -/
def Zstd.stored : Zstd where
  compress data := .ok data
  decompress body capacity := if body.length ≤ capacity then .ok body else .error "too small"
  decompress_compress _ _ _ h hlen := Except.ok.inj h ▸ if_pos hlen
  length_decompress body capacity data h := by
    split_ifs at h with hlen
    exact Except.ok.inj h ▸ hlen
  decompress_mono body capacity more data h hle := by
    split_ifs at h with hlen
    exact (if_pos (hlen.trans hle)).trans h
  length_compress data body h := by
    rw [← Except.ok.inj h]
    exact (Nat.le_add_right _ _).trans (Nat.le_add_right _ _)

/-- `Message`. -/
inductive Message where
  | clipboard (text : String)
  | chat (text : String)
  deriving DecidableEq

namespace Message

/-- The type byte of a message. -/
def msgType : Message → UInt8
  | clipboard _ => typeClipboard
  | chat _ => typeChat

/-- Its text. -/
def text : Message → String
  | clipboard text | chat text => text

/-- A message is its type and its text. -/
theorem ext {m m' : Message} (htype : m.msgType = m'.msgType) (htext : m.text = m'.text) :
    m = m' := by
  have hne : typeClipboard ≠ typeChat := by decide
  cases m <;> cases m'
  · exact congrArg clipboard htext
  · exact absurd htype hne
  · exact absurd htype.symm hne
  · exact congrArg chat htext

end Message

/-- `ChannelError`. -/
inductive ChannelError where
  | frameTooShort
  | unknownType (msgType : UInt8)
  | bodyTooLarge (len : ℕ)
  | lengthMismatch (expected actual : ℕ)
  | zstd (msg : String)
  | invalidUtf8
  deriving DecidableEq

namespace ReliableChannel

variable (zstd : Zstd)

/-- `encode`. -/
def encode (msgType : UInt8) (text : String) : Except ChannelError (List UInt8) := do
  let compressed ← (zstd.compress (strBytes text)).mapError .zstd
  return msgType :: beBytes 4 compressed.length ++ compressed

/-- `encode_clipboard`. -/
def encodeClipboard (text : String) : Except ChannelError (List UInt8) :=
  encode zstd typeClipboard text

/-- `encode_chat`. -/
def encodeChat (text : String) : Except ChannelError (List UInt8) := encode zstd typeChat text

/-- The frame of a message. -/
def encodeMessage : Message → Except ChannelError (List UInt8)
  | .clipboard text => encodeClipboard zstd text
  | .chat text => encodeChat zstd text

/-- `decode`. -/
def decode (frame : List UInt8) : Except ChannelError Message :=
  match frame with
  | msgType :: b0 :: b1 :: b2 :: b3 :: payload => do
    let bodyLen := ofBE [b0, b1, b2, b3]
    if maxBodyLen < bodyLen then throw (.bodyTooLarge bodyLen)
    if payload.length ≠ bodyLen then throw (.lengthMismatch bodyLen payload.length)
    let decompressed ← (zstd.decompress payload maxBodyLen).mapError .zstd
    let text ← match fromUtf8 decompressed with
      | some text => pure text
      | none => throw .invalidUtf8
    if msgType = typeClipboard then return .clipboard text
    else if msgType = typeChat then return .chat text
    else throw (.unknownType msgType)
  | _ => throw .frameTooShort

variable {zstd}

/-- The message of a type byte and a text. -/
theorem ofType_eq_ok {msgType : UInt8} {text : String} {m : Message} :
    (if msgType = typeClipboard then Except.ok (.clipboard text)
      else if msgType = typeChat then .ok (.chat text)
      else .error (ChannelError.unknownType msgType)) = .ok m ↔
      m.msgType = msgType ∧ m.text = text := by
  -- A message is known by its type and its text.
  have hiff : ∀ m' : Message, m'.msgType = msgType → m'.text = text →
      ((Except.ok m' : Except ChannelError Message) = .ok m ↔
        m.msgType = msgType ∧ m.text = text) := by
    rintro m' rfl rfl
    constructor
    · rintro ⟨⟩
      exact ⟨rfl, rfl⟩
    · rintro ⟨htype, htext⟩
      rw [Message.ext htype htext]
  by_cases hclipboard : msgType = typeClipboard
  · rw [if_pos hclipboard]
    exact hiff _ hclipboard.symm rfl
  · rw [if_neg hclipboard]
    by_cases hchat : msgType = typeChat
    · rw [if_pos hchat]
      exact hiff _ hchat.symm rfl
    · rw [if_neg hchat]
      refine iff_of_false (by simp) ?_
      rintro ⟨htype, -⟩
      cases m with
      | clipboard text => exact hclipboard htype.symm
      | chat text => exact hchat htype.symm

/-- What is decoded behind the header. -/
theorem decode_header {msgType b0 b1 b2 b3 : UInt8} {payload : List UInt8} {m : Message} :
    decode zstd (msgType :: b0 :: b1 :: b2 :: b3 :: payload) = .ok m ↔
      m.msgType = msgType ∧ payload.length = ofBE [b0, b1, b2, b3] ∧
        payload.length ≤ maxBodyLen ∧
        zstd.decompress payload maxBodyLen = .ok (strBytes m.text) := by
  rw [decode]
  -- The checks in the order of the source: the stated length, the real one, the body, the text.
  by_cases hlarge : maxBodyLen < ofBE [b0, b1, b2, b3]
  · rw [if_pos hlarge]
    refine iff_of_false (by simp [throw, throwThe, MonadExceptOf.throw, bind, Except.bind]) ?_
    rintro ⟨-, hlen, hle, -⟩
    omega
  · rw [if_neg hlarge]
    by_cases hlen : payload.length = ofBE [b0, b1, b2, b3]
    · have hle : payload.length ≤ maxBodyLen := by omega
      rw [if_neg (not_not.mpr hlen)]
      cases hbody : zstd.decompress payload maxBodyLen with
      | error msg =>
        exact iff_of_false (by simp [Except.mapError, bind, Except.bind]) (by simp)
      | ok data =>
        cases hutf8 : fromUtf8 data with
        | none =>
          refine iff_of_false (by simp [Except.mapError, hutf8, bind, Except.bind, throw,
            throwThe, MonadExceptOf.throw]) ?_
          rintro ⟨-, -, -, hdata⟩
          rw [fromUtf8_eq_some.mpr (Except.ok.inj hdata)] at hutf8
          cases hutf8
        | some text =>
          have hdata : (Except.ok data : Except String _) = .ok (strBytes m.text) ↔
              m.text = text := by
            rw [Except.ok.injEq, ← fromUtf8_eq_some, hutf8, Option.some.injEq, eq_comm]
          rw [and_iff_right hlen, and_iff_right hle, hdata, ← ofType_eq_ok]
          simp only [Except.mapError, hutf8, bind, Except.bind, pure, Except.pure, throw, throwThe,
            MonadExceptOf.throw]
    · rw [if_pos hlen]
      exact iff_of_false (by simp [throw, throwThe, MonadExceptOf.throw, bind, Except.bind])
        fun h => hlen h.2.1

/-- A frame is decoded to a message exactly when it is the header of the message and a body within
the limit that decompresses to its text. -/
theorem decode_eq_ok {frame : List UInt8} {m : Message} :
    decode zstd frame = .ok m ↔
      ∃ body, frame = m.msgType :: beBytes 4 body.length ++ body ∧ body.length ≤ maxBodyLen ∧
        zstd.decompress body maxBodyLen = .ok (strBytes m.text) := by
  constructor
  · intro h
    rcases frame with _ | ⟨msgType, _ | ⟨b0, _ | ⟨b1, _ | ⟨b2, _ | ⟨b3, payload⟩⟩⟩⟩⟩
    -- A frame with less than a header is too short.
    any_goals cases h
    obtain ⟨htype, hlen, hle, hbody⟩ := decode_header.mp h
    refine ⟨payload, ?_, hle, hbody⟩
    have hheader : beBytes 4 (ofBE [b0, b1, b2, b3]) = [b0, b1, b2, b3] :=
      beBytes_ofBE [b0, b1, b2, b3]
    rw [htype, hlen, hheader]
    rfl
  · rintro ⟨body, rfl, hle, hbody⟩
    have hlen : (beBytes 4 body.length).length = 4 := length_beBytes 4 _
    have hsmall : body.length < 256 ^ 4 := hle.trans_lt (by decide)
    have hread : ofBE (beBytes 4 body.length) = body.length := by
      rw [ofBE_beBytes, Nat.mod_eq_of_lt hsmall]
    obtain ⟨b0, b1, b2, b3, hb⟩ : ∃ b0 b1 b2 b3, beBytes 4 body.length = [b0, b1, b2, b3] :=
      List.length_eq_four.mp hlen
    rw [hb] at hread ⊢
    exact decode_header.mpr ⟨rfl, hread.symm, hle, hbody⟩

/-- The frame of a message. -/
theorem encodeMessage_eq_ok {m : Message} {frame : List UInt8} :
    encodeMessage zstd m = .ok frame ↔
      ∃ body, zstd.compress (strBytes m.text) = .ok body ∧
        frame = m.msgType :: beBytes 4 body.length ++ body := by
  have hencode : encodeMessage zstd m = encode zstd m.msgType m.text := by
    cases m <;> rfl
  rw [hencode, encode]
  cases hbody : zstd.compress (strBytes m.text) with
  | error msg => simp [Except.mapError, bind, Except.bind]
  | ok body => simp [Except.mapError, bind, Except.bind, pure, Except.pure, eq_comm]

/-- What a frame of a message is decoded to, if anything: the message, and exactly when neither the
text nor what it is compressed to is over the limit. -/
theorem encode_decode_iff (zstd : Zstd) (m m' : Message) :
    (encodeMessage zstd m).bind (decode zstd) = .ok m' ↔
      m' = m ∧ (strBytes m.text).length ≤ maxBodyLen ∧
        ∃ body, zstd.compress (strBytes m.text) = .ok body ∧ body.length ≤ maxBodyLen := by
  have hbind : (encodeMessage zstd m).bind (decode zstd) = .ok m' ↔
      ∃ frame, encodeMessage zstd m = .ok frame ∧ decode zstd frame = .ok m' :=
    bind_eq_ok
  simp only [hbind, encodeMessage_eq_ok, decode_eq_ok]
  constructor
  · rintro ⟨_, ⟨body, hbody, rfl⟩, body', hframe, hle, hdata⟩
    -- The two headers have the same length, so type and body are the same.
    obtain ⟨htype, hrest⟩ := List.cons.inj hframe
    obtain ⟨-, rfl⟩ := List.append_inj hrest (by rw [length_beBytes, length_beBytes])
    have hall := zstd.decompress_compress _ _ _ hbody (Nat.le_max_left _ maxBodyLen)
    have hmore := zstd.decompress_mono _ _ _ _ hdata
      (Nat.le_max_right (strBytes m.text).length maxBodyLen)
    have htext : strBytes m.text = strBytes m'.text := Except.ok.inj (hall.symm.trans hmore)
    have hlen := zstd.length_decompress _ _ _ hdata
    rw [← htext] at hlen
    have hsame : fromUtf8 (strBytes m.text) = some m'.text := fromUtf8_eq_some.mpr htext
    rw [fromUtf8_eq_some.mpr rfl] at hsame
    exact ⟨Message.ext htype.symm (Option.some.inj hsame).symm, hlen, body, hbody, hle⟩
  · rintro ⟨rfl, hlen, body, hbody, hle⟩
    exact ⟨_, ⟨body, hbody, rfl⟩, body, rfl, hle, zstd.decompress_compress _ _ _ hbody hlen⟩

/-- A chat text comes back as itself, and as no clipboard text. -/
theorem encode_decode_stored :
    (encodeMessage .stored (.chat "grüße")).bind (decode .stored) = .ok (.chat "grüße") ∧
      (encodeMessage .stored (.chat "grüße")).bind (decode .stored) ≠ .ok (.clipboard "grüße") := by
  have hlen : (strBytes (Message.chat "grüße").text).length ≤ maxBodyLen := by decide +kernel
  constructor
  · exact (encode_decode_iff .stored _ _).mpr ⟨rfl, hlen, _, rfl, hlen⟩
  · intro h
    exact Message.noConfusion ((encode_decode_iff .stored _ _).mp h).1

end ReliableChannel

/-! ## The chat -/

/-- `ChatError`. -/
inductive ChatError where
  | textTooLong (len : ℕ)
  deriving DecidableEq

/-- `ChatMessage`. -/
structure ChatMessage where
  text : String
  deriving DecidableEq

/-- `ChatSession`. -/
structure ChatSession where
  outbox : List ChatMessage

namespace ChatSession

/-- `new`. -/
def new : ChatSession := ⟨[]⟩

/-- `send`. -/
def send (s : ChatSession) (text : String) : Except ChatError ChatMessage × ChatSession :=
  let len := (strBytes text).length
  if chatMaxTextBytes < len then (.error (.textTooLong len), s)
  else
    let message : ChatMessage := ⟨text⟩
    (.ok message, ⟨s.outbox ++ [message]⟩)

/-- `drain`. -/
def drain (s : ChatSession) : List ChatMessage × ChatSession := (s.outbox, ⟨[]⟩)

end ChatSession

/-- A call on a chat session. -/
inductive ChatCall where
  | send (text : String)
  | drain

/-- One call, with the messages that it hands to the transport. -/
def chat : Machine ChatSession ChatCall ChatMessage
  | s, .send text => ([], (s.send text).2)
  | s, .drain => s.drain

/-- The messages that are accepted, in order. -/
def accepted (cs : List ChatCall) : List ChatMessage :=
  cs.filterMap fun
    | .send text => if chatMaxTextBytes < (strBytes text).length then none else some ⟨text⟩
    | .drain => none

/-- What was accepted was handed to the transport or is in the outbox, once and in order. -/
theorem emitted_append_outbox (s : ChatSession) (cs : List ChatCall) :
    chat.emitted s cs ++ (chat.finish s cs).outbox = s.outbox ++ accepted cs := by
  induction cs generalizing s with
  | nil => exact (List.append_nil _).symm
  | cons c cs ih =>
    have hrest := ih (chat s c).2
    show ((chat s c).1 ++ chat.emitted (chat s c).2 cs) ++ (chat.finish (chat s c).2 cs).outbox = _
    rw [List.append_assoc, hrest]
    cases c with
    | send text =>
      by_cases hlong : chatMaxTextBytes < (strBytes text).length
      · simp [accepted, chat, ChatSession.send, hlong]
      · simp [accepted, chat, ChatSession.send, hlong]
    | drain => simp [accepted, chat, ChatSession.drain]

/-- Every accepted text has at most 256 bytes. -/
theorem length_of_mem_accepted {cs : List ChatCall} {message : ChatMessage}
    (h : message ∈ accepted cs) : (strBytes message.text).length ≤ chatMaxTextBytes := by
  obtain ⟨c, -, hc⟩ := List.mem_filterMap.mp h
  cases c with
  | send text =>
    by_cases hlong : chatMaxTextBytes < (strBytes text).length
    · simp [hlong] at hc
    · obtain rfl : (⟨text⟩ : ChatMessage) = message := by simpa [hlong] using hc
      exact Nat.le_of_not_lt hlong
  | drain => cases hc

/-- After any sends and drains, in any order, the messages that were accepted were handed to the
transport or wait in the outbox, each once and in order. The frame of each has at most 325 bytes,
and the peer decodes it to the text that was sent. -/
theorem chat_arrives (zstd : Zstd) (cs : List ChatCall) :
    chat.emitted .new cs ++ (chat.finish .new cs).outbox = accepted cs ∧
      ∀ message ∈ accepted cs, ∀ frame,
        ReliableChannel.encodeChat zstd message.text = .ok frame →
        frame.length ≤ 325 ∧ ReliableChannel.decode zstd frame = .ok (.chat message.text) := by
  refine ⟨emitted_append_outbox .new cs, fun message hmessage frame hframe => ?_⟩
  have hlen : (strBytes message.text).length ≤ 256 := length_of_mem_accepted hmessage
  have hencode : ReliableChannel.encodeMessage zstd (.chat message.text) = .ok frame := hframe
  -- An accepted text is short, and so is its compressed body.
  obtain ⟨body, hbody, hframe⟩ := ReliableChannel.encodeMessage_eq_ok.mp hencode
  have hbound : body.length ≤ 320 := by
    have hcompress := zstd.length_compress _ _ hbody
    have htext : (Message.chat message.text).text = message.text := rfl
    rw [compressBound, htext] at hcompress
    split_ifs at hcompress <;> omega
  constructor
  · rw [hframe, List.cons_append, List.length_cons, List.length_append, length_beBytes]
    omega
  · have hmax : maxBodyLen = 67108864 := rfl
    rw [ReliableChannel.decode_eq_ok]
    exact ⟨body, hframe, by omega,
      zstd.decompress_compress _ _ _ hbody (hlen.trans (by rw [hmax]; omega))⟩

/-- A text is sent and drained, one that is too long is refused, and another one waits. -/
def shortChat : List ChatCall :=
  [.send "hello", .drain, .send (String.ofList (List.replicate 257 'a')), .send "grüße"]

/-- The two accepted texts were drained or wait, and the frame of the last one is decoded to it. -/
theorem chat_arrives_short :
    chat.emitted .new shortChat ++ (chat.finish .new shortChat).outbox = [⟨"hello"⟩, ⟨"grüße"⟩] ∧
      ∃ frame, ReliableChannel.encodeChat .stored "grüße" = .ok frame ∧ frame.length ≤ 325 ∧
        ReliableChannel.decode .stored frame = .ok (.chat "grüße") := by
  obtain ⟨horder, harrive⟩ := chat_arrives .stored shortChat
  have haccepted : accepted shortChat = [⟨"hello"⟩, ⟨"grüße"⟩] := by decide +kernel
  rw [haccepted] at horder harrive
  exact ⟨horder, _, rfl, harrive ⟨"grüße"⟩ (List.mem_of_getElem? (i := 1) rfl) _ rfl⟩

end LowBand.Messaging
