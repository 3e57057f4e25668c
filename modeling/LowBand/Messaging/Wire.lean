import LowBand.Lib.Reader
import LowBand.Messaging.PanicKey

/-!
# The message frames

The wire format of chat, clipboard and panic messages, from `wire.rs`. A Rust `String` is a Lean
`String`: both are the byte strings that are valid UTF-8. `decode_ok` says exactly which bytes are
decoded to a frame: those that begin with its encoding, when its fields keep to the caps of the
channel.
-/

namespace LowBand.Messaging

open Lib

/-- `CHAT_MAX_TEXT_BYTES`. -/
def chatMaxTextBytes : ℕ := 256

/-- `CLIPBOARD_MAX_TEXT_BYTES`. -/
def clipboardMaxTextBytes : ℕ := 4096

/-- `CLIPBOARD_MAX_FILES`. -/
def clipboardMaxFiles : ℕ := 64

/-- `ClipboardFileEntry`. -/
structure ClipboardFileEntry where
  /-- The name of the file. -/
  name : String
  /-- Its size in bytes. -/
  size : UInt64
deriving DecidableEq

/-- `ClipboardFileOffer`. -/
structure ClipboardFileOffer where
  /-- The files. -/
  entries : List ClipboardFileEntry
deriving DecidableEq

/-- `KIND_CHAT`. -/
def kindChat : UInt8 := 0x01

/-- `KIND_CLIPBOARD_TEXT`. -/
def kindClipboardText : UInt8 := 0x02

/-- `KIND_CLIPBOARD_FILES`. -/
def kindClipboardFiles : UInt8 := 0x03

/-- `KIND_PANIC`. -/
def kindPanic : UInt8 := 0x04

/-- `MessageFrame`. -/
inductive MessageFrame where
  /-- Chat text. -/
  | chat (text : String)
  /-- Clipboard text. -/
  | clipboardText (text : String)
  /-- An offer of clipboard files. -/
  | clipboardFiles (offer : ClipboardFileOffer)
  /-- The panic key of the peer. -/
  | panic (notice : PanicNotice)
deriving DecidableEq

/-- `FrameError`. -/
inductive FrameError where
  /-- The frame is empty or a field is cut short. -/
  | truncated
  /-- The first byte is of no message. -/
  | unknownKind (kind : UInt8)
  /-- A length is over the cap of the channel. -/
  | tooLong
  /-- A text is not UTF-8. -/
  | badUtf8
deriving DecidableEq

/-- `put_str`: the length as 16 bits, and the bytes. -/
def putStr (s : String) : List UInt8 := leBytes 2 (strBytes s).length ++ strBytes s

/-- The bytes of one clipboard file. -/
def ClipboardFileEntry.encode (e : ClipboardFileEntry) : List UInt8 :=
  putStr e.name ++ leBytes 8 e.size.toNat

/-- `take_u16`. -/
def takeU16 : Reader FrameError UInt16 := Reader.takeU16 .truncated

/-- `take_u32`. -/
def takeU32 : Reader FrameError UInt32 := Reader.takeU32 .truncated

/-- `take_u64`. -/
def takeU64 : Reader FrameError UInt64 := Reader.takeU64 .truncated

/-- `take_str`. -/
def takeStr (cap : ℕ) : Reader FrameError String := do
  let len ← takeU16
  Reader.refuseIf (len.toNat > cap) .tooLong
  let head ← Reader.takeN .truncated len.toNat
  Reader.okOr (fromUtf8 head) .badUtf8

/-- One clipboard file is read. -/
def takeEntry : Reader FrameError ClipboardFileEntry := do
  let name ← takeStr clipboardMaxTextBytes
  let size ← takeU64
  pure ⟨name, size⟩

namespace MessageFrame

/-- `MessageFrame::encode`. -/
def encode : MessageFrame → List UInt8
  | .chat text => kindChat :: putStr text
  | .clipboardText text => kindClipboardText :: putStr text
  | .clipboardFiles offer =>
    kindClipboardFiles :: (leBytes 2 offer.entries.length ++
      offer.entries.flatMap ClipboardFileEntry.encode)
  | .panic notice => kindPanic :: leBytes 4 notice.seq.toNat

/-- The fields of a frame, after its kind. -/
def takeFields (kind : UInt8) : Reader FrameError MessageFrame :=
  if kind = kindChat then do
    let text ← takeStr chatMaxTextBytes
    pure (.chat text)
  else if kind = kindClipboardText then do
    let text ← takeStr clipboardMaxTextBytes
    pure (.clipboardText text)
  else if kind = kindClipboardFiles then do
    let count ← takeU16
    Reader.refuseIf (count.toNat > clipboardMaxFiles) .tooLong
    let entries ← takeEntry.times count.toNat
    pure (.clipboardFiles ⟨entries⟩)
  else if kind = kindPanic then do
    let seq ← takeU32
    pure (.panic ⟨seq⟩)
  else throw (.unknownKind kind)

/-- A frame is read from the front of the bytes. -/
def take : Reader FrameError MessageFrame := do
  let kind ← Reader.takeByte .truncated
  takeFields kind

/-- `MessageFrame::decode`. -/
def decode (buf : List UInt8) : Except FrameError MessageFrame := Reader.decode take buf

/-- The fields keep to the caps of their channel. -/
def WithinCaps : MessageFrame → Prop
  | .chat text => (strBytes text).length ≤ chatMaxTextBytes
  | .clipboardText text => (strBytes text).length ≤ clipboardMaxTextBytes
  | .clipboardFiles offer => offer.entries.length ≤ clipboardMaxFiles ∧
    ∀ e ∈ offer.entries, (strBytes e.name).length ≤ clipboardMaxTextBytes
  | .panic _ => True

end MessageFrame

/-! ## What is decoded -/

/-- The length of a chat text fits 16 bits. -/
theorem chat_lt : chatMaxTextBytes < 2 ^ 16 := by decide

/-- So does that of a clipboard text. -/
theorem clipboard_lt : clipboardMaxTextBytes < 2 ^ 16 := by decide

/-- `take_str` reads what `put_str` wrote of a text within the cap. -/
theorem takeStr_ok {cap : ℕ} (hcap : cap < 2 ^ 16) {bs rest : List UInt8} {s : String} :
    takeStr cap bs = .ok (s, rest) ↔ (strBytes s).length ≤ cap ∧ bs = putStr s ++ rest := by
  simp only [takeStr, takeU16, putStr, Reader.bind_ok, Reader.takeU16_ok, Reader.refuseIf_ok,
    Reader.takeN_ok, Reader.okOr_ok, fromUtf8_eq_some]
  constructor
  · rintro ⟨len, _, rfl, _, _, ⟨hle, rfl⟩, _, _, ⟨hlen, rfl⟩, rfl, rfl⟩
    rw [hlen]
    exact ⟨Nat.not_lt.mp hle, (List.append_assoc _ _ _).symm⟩
  · rintro ⟨hle, rfl⟩
    have hlen : (UInt16.ofNat (strBytes s).length).toNat = (strBytes s).length :=
      UInt16.toNat_ofNat_of_lt' (hle.trans_lt hcap)
    exact ⟨UInt16.ofNat (strBytes s).length, strBytes s ++ rest,
      by rw [hlen, List.append_assoc], (), _, ⟨by rwa [hlen, Nat.not_lt], rfl⟩, strBytes s, rest,
      ⟨hlen.symm, rfl⟩, rfl, rfl⟩

/-- A clipboard file is read from its bytes. -/
theorem reads_takeEntry :
    takeEntry.Reads (fun e => (strBytes e.name).length ≤ clipboardMaxTextBytes)
      ClipboardFileEntry.encode := by
  intro bs e rest
  obtain ⟨name, size⟩ := e
  simp only [takeEntry, takeU64, Reader.bind_ok, Reader.pure_ok, Reader.takeU64_ok,
    takeStr_ok clipboard_lt, ClipboardFileEntry.encode,
    ClipboardFileEntry.mk.injEq]
  constructor
  · rintro ⟨_, _, ⟨hle, rfl⟩, _, _, rfl, ⟨rfl, rfl⟩, rfl⟩
    exact ⟨hle, (List.append_assoc _ _ _).symm⟩
  · rintro ⟨hle, rfl⟩
    exact ⟨name, _, ⟨hle, List.append_assoc _ _ _⟩, size, rest, rfl, ⟨rfl, rfl⟩, rfl⟩

namespace MessageFrame

/-- What is read is within the caps, and its encoding was at the front of the bytes. -/
theorem of_take {buf : List UInt8} {f : MessageFrame} {rest : List UInt8}
    (h : take buf = .ok (f, rest)) : f.WithinCaps ∧ buf = f.encode ++ rest := by
  simp only [take, takeFields, takeU16, takeU32, Reader.bind_ok, Reader.takeByte_ok] at h
  obtain ⟨kind, mid, rfl, h⟩ := h
  -- One case for each kind byte, and a refusal of all others.
  split_ifs at h with hchat htext hfiles hpanic
  · simp only [Reader.bind_ok, Reader.pure_ok, takeStr_ok chat_lt] at h
    obtain ⟨text, _, ⟨hle, rfl⟩, rfl, rfl⟩ := h
    exact ⟨hle, by rw [hchat]; rfl⟩
  · simp only [Reader.bind_ok, Reader.pure_ok, takeStr_ok clipboard_lt] at h
    obtain ⟨text, _, ⟨hle, rfl⟩, rfl, rfl⟩ := h
    exact ⟨hle, by rw [htext]; rfl⟩
  · simp only [Reader.bind_ok, Reader.pure_ok, Reader.takeU16_ok, Reader.refuseIf_ok,
      reads_takeEntry.times_ok] at h
    obtain ⟨count, _, rfl, _, _, ⟨hle, rfl⟩, entries, _, ⟨hlen, hall, rfl⟩, rfl, rfl⟩ := h
    refine ⟨⟨hlen ▸ Nat.not_lt.mp hle, hall⟩, ?_⟩
    rw [hfiles, encode, hlen, List.cons_append, List.append_assoc]
  · simp only [Reader.bind_ok, Reader.pure_ok, Reader.takeU32_ok] at h
    obtain ⟨seq, _, rfl, rfl, rfl⟩ := h
    exact ⟨trivial, by rw [hpanic]; rfl⟩
  · exact (Reader.throw_ok.mp h).elim

/-- A frame within the caps is read from its encoding. -/
theorem take_encode {f : MessageFrame} (hcaps : f.WithinCaps) (rest : List UInt8) :
    take (f.encode ++ rest) = .ok (f, rest) := by
  simp only [take, takeFields, takeU16, takeU32, Reader.bind_ok, Reader.takeByte_ok]
  cases f with
  | chat text =>
    refine ⟨kindChat, putStr text ++ rest, rfl, ?_⟩
    simp only [if_true, Reader.bind_ok, Reader.pure_ok, takeStr_ok chat_lt]
    exact ⟨text, rest, ⟨hcaps, rfl⟩, rfl, rfl⟩
  | clipboardText text =>
    refine ⟨kindClipboardText, putStr text ++ rest, rfl, ?_⟩
    rw [if_neg (by decide), if_pos rfl]
    simp only [Reader.bind_ok, Reader.pure_ok, takeStr_ok clipboard_lt]
    exact ⟨text, rest, ⟨hcaps, rfl⟩, rfl, rfl⟩
  -- The number of files is within its two bytes.
  | clipboardFiles offer =>
    obtain ⟨entries⟩ := offer
    obtain ⟨hle, hall⟩ := hcaps
    have hlen : (UInt16.ofNat entries.length).toNat = entries.length :=
      UInt16.toNat_ofNat_of_lt' (hle.trans_lt (by decide))
    refine ⟨kindClipboardFiles, _, rfl, ?_⟩
    rw [if_neg (by decide), if_neg (by decide), if_pos rfl]
    simp only [Reader.bind_ok, Reader.pure_ok, Reader.takeU16_ok, Reader.refuseIf_ok,
      reads_takeEntry.times_ok]
    refine ⟨UInt16.ofNat entries.length, _, ?_, (), _, ⟨?_, rfl⟩, entries, rest,
      ⟨hlen.symm, hall, rfl⟩, rfl, rfl⟩
    · rw [hlen]
      exact List.append_assoc _ _ _
    · rw [hlen]
      exact Nat.not_lt.mpr hle
  | panic notice =>
    refine ⟨kindPanic, _, rfl, ?_⟩
    rw [if_neg (by decide), if_neg (by decide), if_neg (by decide), if_pos rfl]
    simp only [Reader.bind_ok, Reader.pure_ok, Reader.takeU32_ok]
    exact ⟨notice.seq, rest, rfl, rfl, rfl⟩

/-- A frame is read from the bytes that begin with its encoding, when it is within the caps. -/
theorem reads_take : take.Reads WithinCaps encode :=
  ⟨of_take, fun ⟨hcaps, h⟩ => h ▸ take_encode hcaps _⟩

/-- Bytes are decoded to a frame exactly when they begin with its encoding and it is within the
caps. -/
theorem decode_ok {buf : List UInt8} {f : MessageFrame} :
    decode buf = .ok f ↔ f.WithinCaps ∧ f.encode <+: buf := reads_take.decode_ok

end MessageFrame

end LowBand.Messaging
