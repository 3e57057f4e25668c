import LowBand.Lib.Inet
import LowBand.Lib.Result

/-!
# The STUN client

`stun.rs`: the parser of a Binding Success response, from which a peer learns its public address.
The parser walks the attributes of the message by the lengths that the message gives. Every access
to the message is one that panics out of bounds, so that a response parsed is one that was read
inside its bounds.

`attributes` is the padded attribute list of a body without an index. The walk returns what
`mappedAddress` says of that list, from whatever place and fallback it starts (`walk_eq`), and the
checks in front of it pass exactly for the messages that `response` builds
(`parseBindingResponse_response`, `exists_response`). What `encodeAttributes` writes is read back by
`attributes` (`attributes_encodeAttributes`), whatever the bytes of the padding.
-/

namespace LowBand.Lowbandd.Stun

open Lib

/-- `MAGIC_COOKIE`. -/
def magicCookie : UInt32 := 0x2112A442

/-- `BINDING_SUCCESS`. -/
def bindingSuccess : UInt16 := 0x0101

/-- `ATTR_MAPPED_ADDRESS`. -/
def attrMappedAddress : UInt16 := 0x0001

/-- `ATTR_XOR_MAPPED_ADDRESS`. -/
def attrXorMappedAddress : UInt16 := 0x0020

/-- `HEADER_LEN`. -/
def headerLen : ℕ := 20

/-! ## Accesses -/

/-- An access out of bounds, which panics. -/
inductive OutOfBounds where
  /-- The index is out of bounds. -/
  | panic
deriving DecidableEq

/-- `msg[i]`. -/
def byteAt (msg : List UInt8) (i : ℕ) : Except OutOfBounds UInt8 :=
  match msg[i]? with
  | some b => .ok b
  | none => .error .panic

/-- `&msg[i..j]`. -/
def bytesAt (msg : List UInt8) (i j : ℕ) : Except OutOfBounds (List UInt8) :=
  if i ≤ j ∧ j ≤ msg.length then .ok ((msg.take j).drop i) else .error .panic

/-- `u16::from_be_bytes([msg[i], msg[i + 1]])`. -/
def u16At (msg : List UInt8) (i : ℕ) : Except OutOfBounds UInt16 := do
  let b0 ← byteAt msg i
  let b1 ← byteAt msg (i + 1)
  pure (UInt16.ofNat (ofBE [b0, b1]))

/-- `u32::from_be_bytes([msg[i], msg[i + 1], msg[i + 2], msg[i + 3]])`. -/
def u32At (msg : List UInt8) (i : ℕ) : Except OutOfBounds UInt32 := do
  let b0 ← byteAt msg i
  let b1 ← byteAt msg (i + 1)
  let b2 ← byteAt msg (i + 2)
  let b3 ← byteAt msg (i + 3)
  pure (UInt32.ofNat (ofBE [b0, b1, b2, b3]))

/-! ## The parser -/

/-- `cookie[i]`, of `MAGIC_COOKIE.to_be_bytes()`. -/
def cookieByte (i : UInt32) : UInt8 := (magicCookie >>> (24 - 8 * i)).toUInt8

/-- The address with its port XORed with the upper half of the cookie and its octets with the
cookie's bytes. -/
def xorCookie (x : SocketAddrV4) : SocketAddrV4 :=
  ⟨x.a ^^^ cookieByte 0, x.b ^^^ cookieByte 1, x.c ^^^ cookieByte 2, x.d ^^^ cookieByte 3,
    x.port ^^^ (magicCookie >>> 16).toUInt16⟩

/-- `parse_addr`. -/
def parseAddr (value : List UInt8) (xored : Bool) :
    Except OutOfBounds (Option SocketAddrV4) := do
  if value.length < 8 then pure none
  else if (← byteAt value 1) ≠ 0x01 then pure none
  else
    let port ← u16At value 2
    let a ← byteAt value 4
    let b ← byteAt value 5
    let c ← byteAt value 6
    let d ← byteAt value 7
    if xored then pure (some (xorCookie ⟨a, b, c, d, port⟩)) else pure (some ⟨a, b, c, d, port⟩)

/-- `attr_len.div_ceil(4) * 4`. -/
def paddedLen (attrLen : ℕ) : ℕ := (attrLen + 3) / 4 * 4

/-- The loop of `parse_binding_response` over the attributes. -/
def walk (msg : List UInt8) (limit off : ℕ) (fallback : Option SocketAddrV4) :
    Except OutOfBounds (Option SocketAddrV4) :=
  if off + 4 ≤ limit then do
    let attrType ← u16At msg off
    let attrLen := (← u16At msg (off + 2)).toNat
    let valStart := off + 4
    let valEnd := valStart + attrLen
    if valEnd > limit then pure fallback
    else
      let value ← bytesAt msg valStart valEnd
      let next := valStart + paddedLen attrLen
      if attrType = attrXorMappedAddress then
        match ← parseAddr value true with
        | some a => pure (some a)
        | none => walk msg limit next fallback
      else if attrType = attrMappedAddress then
        -- Only the first fallback is parsed.
        if fallback.isNone then walk msg limit next (← parseAddr value false)
        else walk msg limit next fallback
      else walk msg limit next fallback
  else pure fallback
termination_by limit - off
decreasing_by all_goals omega

/-- `parse_binding_response`. -/
def parseBindingResponse (msg : List UInt8) (tx : Bytes 12) :
    Except OutOfBounds (Option SocketAddrV4) := do
  if msg.length < headerLen then pure none
  else if (← u16At msg 0) ≠ bindingSuccess then pure none
  else
    let length := (← u16At msg 2).toNat
    if (← u32At msg 4) ≠ magicCookie then pure none
    else if (← bytesAt msg 8 20) ≠ tx.val then pure none
    else if headerLen + length > msg.length then pure none
    else walk msg (headerLen + length) headerLen none

/-- `encode_success_xor`. -/
def encodeSuccessXor (tx : Bytes 12) (reflexive : SocketAddrV4) : List UInt8 :=
  let xaddr := xorCookie reflexive
  let attr := beBytes 2 attrXorMappedAddress.toNat ++ beBytes 2 8 ++ [0x00, 0x01] ++
    beBytes 2 xaddr.port.toNat ++ [xaddr.a, xaddr.b, xaddr.c, xaddr.d]
  beBytes 2 bindingSuccess.toNat ++ beBytes 2 attr.length ++ beBytes 4 magicCookie.toNat ++
    tx.val ++ attr

/-! ## The attribute list -/

/-- An attribute, with the bytes that pad its value. -/
structure Attribute where
  /-- The type. -/
  kind : UInt16
  /-- The value. -/
  value : List UInt8
deriving DecidableEq

/-- The padded attribute list of a body, up to the first bytes that hold no whole attribute. -/
def attributes : List UInt8 → List Attribute
  | t0 :: t1 :: l0 :: l1 :: rest =>
    if ofBE [l0, l1] ≤ rest.length then
      ⟨UInt16.ofNat (ofBE [t0, t1]), rest.take (ofBE [l0, l1])⟩ ::
        attributes (rest.drop (paddedLen (ofBE [l0, l1])))
    else []
  | _ => []
termination_by body => body.length
decreasing_by
  rw [List.length_drop]
  simp only [List.length_cons]
  omega

/-- The IPv4 address in the value of an attribute, if it is valid. -/
def ipv4In : List UInt8 → Option SocketAddrV4
  | _ :: family :: p0 :: p1 :: a :: b :: c :: d :: _ =>
    if family = 0x01 then some ⟨a, b, c, d, UInt16.ofNat (ofBE [p0, p1])⟩ else none
  | _ => none

/-- The address of a valid XOR-MAPPED-ADDRESS. -/
def Attribute.xorMapped? (x : Attribute) : Option SocketAddrV4 :=
  if x.kind = attrXorMappedAddress then (ipv4In x.value).map xorCookie else none

/-- The address of a valid MAPPED-ADDRESS. -/
def Attribute.mapped? (x : Attribute) : Option SocketAddrV4 :=
  if x.kind = attrMappedAddress then ipv4In x.value else none

/-- The first valid XOR-MAPPED-ADDRESS, or else the first valid MAPPED-ADDRESS. -/
def mappedAddress (xs : List Attribute) : Option SocketAddrV4 :=
  (xs.findSome? Attribute.xorMapped?).or (xs.findSome? Attribute.mapped?)

/-! ## The walk -/

/-- A byte of a part of the message is that of the message. -/
theorem byteAt_of_drop {msg : List UInt8} {limit off k : ℕ} {b : UInt8}
    (h : ((msg.take limit).drop off)[k]? = some b) : byteAt msg (off + k) = .ok b := by
  rw [List.getElem?_drop, List.getElem?_take] at h
  split at h
  · rw [byteAt, h]
  · cases h

/-- Two bytes of a part of the message are the number they make. -/
theorem u16At_of_drop {msg : List UInt8} {limit off k : ℕ} {b0 b1 : UInt8}
    (h0 : ((msg.take limit).drop off)[k]? = some b0)
    (h1 : ((msg.take limit).drop off)[k + 1]? = some b1) :
    u16At msg (off + k) = .ok (UInt16.ofNat (ofBE [b0, b1])) := by
  rw [u16At, byteAt_of_drop h0, ok_bind, Nat.add_assoc, byteAt_of_drop h1, ok_bind]
  rfl

/-- Eight bytes or more are read without an access out of bounds. -/
theorem parseAddr_eq (value : List UInt8) (xored : Bool) :
    parseAddr value xored =
      .ok (if xored then (ipv4In value).map xorCookie else ipv4In value) := by
  match value with
  | r :: family :: p0 :: p1 :: a :: b :: c :: d :: more =>
    have hlen : ¬ (r :: family :: p0 :: p1 :: a :: b :: c :: d :: more).length < 8 := by
      simp only [List.length_cons]
      omega
    rw [parseAddr, if_neg hlen]
    by_cases hfamily : family = 0x01
    · cases xored <;> simp [byteAt, u16At, ipv4In, hfamily, ok_bind, pure, Except.pure]
    · cases xored <;> simp [byteAt, ipv4In, hfamily, ok_bind, pure, Except.pure]
  | [] | [_] | [_, _] | [_, _, _] | [_, _, _, _] | [_, _, _, _, _] | [_, _, _, _, _, _]
  | [_, _, _, _, _, _, _] => cases xored <;> rfl

/-- The number of two bytes fits in sixteen bits. -/
theorem toNat_ofBE_pair (b0 b1 : UInt8) : (UInt16.ofNat (ofBE [b0, b1])).toNat = ofBE [b0, b1] := by
  have hlt : ofBE [b0, b1] < 256 ^ 2 := ofLE_lt [b1, b0]
  rw [UInt16.toNat_ofNat']
  exact Nat.mod_eq_of_lt hlt

/-- The number read from the two big-endian bytes of a number that fits in them. -/
theorem ofBE_pair {n : ℕ} (h : n < 65536) : ofBE [UInt8.ofNat (n / 256), UInt8.ofNat n] = n := by
  have hbytes : ofBE (beBytes 2 n) = n % 65536 := ofBE_beBytes 2 n
  rwa [Nat.mod_eq_of_lt h] at hbytes

/-- A list of four elements or more. -/
theorem exists_four {l : List UInt8} (h : 4 ≤ l.length) :
    ∃ a b c d rest, l = a :: b :: c :: d :: rest := by
  match l with
  | a :: b :: c :: d :: rest => exact ⟨a, b, c, d, rest, rfl⟩
  | [] | [_] | [_, _] | [_, _, _] => simp at h

/-- One attribute: the walk ends with its address, or it goes on behind the padding, where the
fallback is the one it has or else the attribute's. -/
theorem walk_of_drop {msg : List UInt8} {limit off : ℕ} {t0 t1 l0 l1 : UInt8} {rest : List UInt8}
    (h : limit ≤ msg.length) (hbody : (msg.take limit).drop off = t0 :: t1 :: l0 :: l1 :: rest)
    (fallback : Option SocketAddrV4) :
    walk msg limit off fallback =
      if ofBE [l0, l1] ≤ rest.length then
        let x : Attribute := ⟨UInt16.ofNat (ofBE [t0, t1]), rest.take (ofBE [l0, l1])⟩
        match x.xorMapped? with
        | some a => .ok (some a)
        | none => walk msg limit (off + 4 + paddedLen (ofBE [l0, l1])) (fallback.or x.mapped?)
      else .ok fallback := by
  -- The reads of the header are in bounds.
  have htype : u16At msg off = .ok (UInt16.ofNat (ofBE [t0, t1])) :=
    u16At_of_drop (k := 0) (by rw [hbody]; rfl) (by rw [hbody]; rfl)
  have hlen : u16At msg (off + 2) = .ok (UInt16.ofNat (ofBE [l0, l1])) :=
    u16At_of_drop (by rw [hbody]; rfl) (by rw [hbody]; rfl)
  have hrest : (msg.take limit).drop (off + 4) = rest := by
    rw [← List.drop_drop, hbody]
    rfl
  have hlength : limit - off = rest.length + 4 := by
    rw [← List.length_take_of_le h, ← List.length_drop, hbody]
    rfl
  rw [walk, if_pos (by omega), htype, ok_bind, hlen, ok_bind]
  simp only [toNat_ofBE_pair]
  generalize UInt16.ofNat (ofBE [t0, t1]) = kind
  generalize ofBE [l0, l1] = len
  -- A value that runs past the end stops the walk.
  by_cases hfit : len ≤ rest.length
  swap
  · rw [if_neg hfit, if_pos (by omega)]
    rfl
  have hvalue : bytesAt msg (off + 4) (off + 4 + len) = .ok (rest.take len) := by
    rw [bytesAt, if_pos (by omega), ← hrest, List.take_drop, List.take_take,
      min_eq_left (by omega)]
  rw [if_neg (by omega), if_pos hfit, hvalue, ok_bind]
  -- An exclusive-or address ends the walk, a plain one is kept as the fallback.
  by_cases hxor : kind = attrXorMappedAddress
  · have hkind : attrXorMappedAddress ≠ attrMappedAddress := by decide
    rw [if_pos hxor, parseAddr_eq, ok_bind]
    simp only [Attribute.xorMapped?, Attribute.mapped?, hxor, if_neg hkind, Option.or_none]
    cases ipv4In (rest.take len) <;> rfl
  · rw [if_neg hxor]
    simp only [Attribute.xorMapped?, Attribute.mapped?, if_neg hxor]
    by_cases hmapped : kind = attrMappedAddress
    · rw [if_pos hmapped, if_pos hmapped]
      cases fallback with
      | none => rw [Option.isNone_none, if_pos rfl, parseAddr_eq, ok_bind]; rfl
      | some a => rfl
    · rw [if_neg hmapped, if_neg hmapped, Option.or_none]

/-- The walk returns the first valid XOR-MAPPED-ADDRESS of the attributes from `off` on, or else the
fallback it has, or else the first valid MAPPED-ADDRESS. -/
theorem walk_eq {msg : List UInt8} {limit : ℕ} (h : limit ≤ msg.length) (off : ℕ)
    (fallback : Option SocketAddrV4) :
    walk msg limit off fallback =
      .ok (((attributes ((msg.take limit).drop off)).findSome? Attribute.xorMapped?).or
        (fallback.or ((attributes ((msg.take limit).drop off)).findSome? Attribute.mapped?))) := by
  -- By strong induction on what is left of the body.
  induction hn : limit - off using Nat.strong_induction_on generalizing off fallback with
  | _ n ih =>
    subst hn
    have hlength : ((msg.take limit).drop off).length = limit - off := by
      rw [List.length_drop, List.length_take_of_le h]
    by_cases hoff : off + 4 ≤ limit
    · obtain ⟨t0, t1, l0, l1, rest, hbody⟩ :=
        exists_four (l := (msg.take limit).drop off) (by omega)
      have hnext : rest.drop (paddedLen (ofBE [l0, l1])) =
          (msg.take limit).drop (off + 4 + paddedLen (ofBE [l0, l1])) := by
        rw [← List.drop_drop, ← List.drop_drop, hbody]
        rfl
      rw [walk_of_drop h hbody, hbody, attributes]
      by_cases hfit : ofBE [l0, l1] ≤ rest.length
      · rw [if_pos hfit, if_pos hfit, hnext, List.findSome?_cons, List.findSome?_cons]
        generalize Attribute.mk _ _ = x
        dsimp only
        cases hx : x.xorMapped? with
        | some a => rfl
        | none =>
          refine (ih (limit - (off + 4 + paddedLen (ofBE [l0, l1]))) (by omega) _ _ rfl).trans ?_
          cases fallback <;> cases x.mapped? <;> rfl
      · rw [if_neg hfit, if_neg hfit]
        cases fallback <;> rfl
    -- Fewer than four bytes hold no attribute.
    · have hshort : attributes ((msg.take limit).drop off) = [] := by
        match hbody : (msg.take limit).drop off with
        | a :: b :: c :: d :: rest =>
          rw [hbody] at hlength
          simp at hlength
          omega
        | [] | [_] | [_, _] | [_, _, _] => rw [attributes]; simp
      rw [walk, if_neg hoff, hshort]
      cases fallback <;> rfl

/-! ## The message -/

/-- A Binding Success response to a transaction, with a body of attributes. -/
def response (tx : Bytes 12) (body : List UInt8) : List UInt8 :=
  beBytes 2 bindingSuccess.toNat ++ beBytes 2 body.length ++ beBytes 4 magicCookie.toNat ++
    tx.val ++ body

/-- The checks of the header, on the bytes of a message that is long enough. -/
theorem parseBindingResponse_cons {m0 m1 m2 m3 m4 m5 m6 m7 : UInt8} {tail : List UInt8}
    (h : 12 ≤ tail.length) (tx : Bytes 12) :
    parseBindingResponse (m0 :: m1 :: m2 :: m3 :: m4 :: m5 :: m6 :: m7 :: tail) tx =
      .ok (if UInt16.ofNat (ofBE [m0, m1]) = bindingSuccess ∧
          UInt32.ofNat (ofBE [m4, m5, m6, m7]) = magicCookie ∧ tail.take 12 = tx.val ∧
          ofBE [m2, m3] ≤ (tail.drop 12).length then
        mappedAddress (attributes ((tail.drop 12).take (ofBE [m2, m3]))) else none) := by
  generalize hmsg : m0 :: m1 :: m2 :: m3 :: m4 :: m5 :: m6 :: m7 :: tail = msg
  have hlength : msg.length = tail.length + 8 := by
    rw [← hmsg]
    rfl
  -- The four reads of the header.
  have htype : u16At msg 0 = .ok (UInt16.ofNat (ofBE [m0, m1])) := by
    rw [← hmsg]
    rfl
  have hlen : u16At msg 2 = .ok (UInt16.ofNat (ofBE [m2, m3])) := by
    rw [← hmsg]
    rfl
  have hcookie : u32At msg 4 = .ok (UInt32.ofNat (ofBE [m4, m5, m6, m7])) := by
    rw [← hmsg]
    rfl
  have htx : bytesAt msg 8 20 = .ok (tail.take 12) := by
    rw [bytesAt, if_pos (by omega), ← hmsg]
    rfl
  rw [parseBindingResponse, headerLen, if_neg (by omega), htype, ok_bind, hlen, ok_bind, hcookie,
    ok_bind, htx, ok_bind, toNat_ofBE_pair]
  -- The checks in the order of the source.
  by_cases h1 : UInt16.ofNat (ofBE [m0, m1]) = bindingSuccess
  swap
  · rw [if_pos h1, if_neg fun hall => h1 hall.1]
    rfl
  by_cases h2 : UInt32.ofNat (ofBE [m4, m5, m6, m7]) = magicCookie
  swap
  · rw [if_neg (not_not_intro h1), if_pos h2, if_neg fun hall => h2 hall.2.1]
    rfl
  by_cases h3 : tail.take 12 = tx.val
  swap
  · rw [if_neg (not_not_intro h1), if_neg (not_not_intro h2), if_pos h3,
      if_neg fun hall => h3 hall.2.2.1]
    rfl
  rw [if_neg (not_not_intro h1), if_neg (not_not_intro h2), if_neg (not_not_intro h3)]
  have hfits : ofBE [m2, m3] ≤ (tail.drop 12).length ↔ ¬ 20 + ofBE [m2, m3] > msg.length := by
    rw [List.length_drop]
    omega
  by_cases h4 : 20 + ofBE [m2, m3] > msg.length
  · rw [if_pos h4, if_neg fun hall => hfits.mp hall.2.2.2 h4]
    rfl
  · have hbody : (msg.take (20 + ofBE [m2, m3])).drop 20 =
        (tail.drop 12).take (ofBE [m2, m3]) := by
      rw [List.drop_take, Nat.add_sub_cancel_left, ← hmsg]
      rfl
    rw [if_neg h4, if_pos ⟨h1, h2, h3, hfits.mpr h4⟩, walk_eq (by omega), hbody]
    rfl

/-- A response, with any bytes behind it, is parsed to the address that its attributes say. -/
theorem parseBindingResponse_response {body : List UInt8} (h : body.length < 65536) (tx : Bytes 12)
    (rest : List UInt8) :
    parseBindingResponse (response tx body ++ rest) tx =
      .ok (mappedAddress (attributes body)) := by
  have hlen := ofBE_pair h
  have hmsg : response tx body ++ rest =
      0x01 :: 0x01 :: UInt8.ofNat (body.length / 256) :: UInt8.ofNat body.length ::
        0x21 :: 0x12 :: 0xA4 :: 0x42 :: (tx.val ++ (body ++ rest)) := by
    rw [response, List.append_assoc, List.append_assoc]
    rfl
  have htake : (tx.val ++ (body ++ rest)).take 12 = tx.val := List.take_left' tx.length_val
  have hdrop : (tx.val ++ (body ++ rest)).drop 12 = body ++ rest := List.drop_left' tx.length_val
  have hfits : ofBE [UInt8.ofNat (body.length / 256), UInt8.ofNat body.length] ≤
      (body ++ rest).length := by
    rw [hlen, List.length_append]
    exact Nat.le_add_right _ _
  rw [hmsg, parseBindingResponse_cons (by simp), htake, hdrop,
    if_pos ⟨by decide, by decide, rfl, hfits⟩, hlen, List.take_left]

/-- What is parsed to an address is a response to the transaction, with any bytes behind it. -/
theorem exists_response {msg : List UInt8} {tx : Bytes 12} {x : SocketAddrV4}
    (h : parseBindingResponse msg tx = .ok (some x)) :
    ∃ body rest, body.length < 65536 ∧ msg = response tx body ++ rest := by
  match msg with
  | m0 :: m1 :: m2 :: m3 :: m4 :: m5 :: m6 :: m7 :: tail =>
    -- A message below twenty bytes is refused.
    have htail : 12 ≤ tail.length := by
      by_contra hshort
      rw [parseBindingResponse, if_pos (by simp only [List.length_cons, headerLen]; omega)] at h
      cases h
    rw [parseBindingResponse_cons htail] at h
    split at h
    · next hchecks =>
      obtain ⟨htype, hcookie, htx, hfits⟩ := hchecks
      have hlen : ((tail.drop 12).take (ofBE [m2, m3])).length = ofBE [m2, m3] :=
        List.length_take_of_le hfits
      have hlt : ofBE [m2, m3] < 256 ^ 2 := ofLE_lt [m3, m2]
      -- Each field of the header is written as it was read.
      have h01 : beBytes 2 bindingSuccess.toNat = [m0, m1] := by
        rw [← htype, toNat_ofBE_pair]
        exact beBytes_ofBE [m0, m1]
      have h23 : beBytes 2 (ofBE [m2, m3]) = [m2, m3] := beBytes_ofBE [m2, m3]
      have h47 : beBytes 4 magicCookie.toNat = [m4, m5, m6, m7] := by
        have hlt4 : ofBE [m4, m5, m6, m7] < 256 ^ 4 := ofLE_lt [m7, m6, m5, m4]
        rw [← hcookie, UInt32.toNat_ofNat', Nat.mod_eq_of_lt (by omega)]
        exact beBytes_ofBE [m4, m5, m6, m7]
      refine ⟨(tail.drop 12).take (ofBE [m2, m3]), (tail.drop 12).drop (ofBE [m2, m3]),
        by omega, ?_⟩
      rw [response, hlen, h01, h23, h47, ← htx, List.append_assoc, List.take_append_drop,
        List.append_assoc, List.take_append_drop]
      rfl
    · cases h
  | [] | [_] | [_, _] | [_, _, _] | [_, _, _, _] | [_, _, _, _, _] | [_, _, _, _, _, _]
  | [_, _, _, _, _, _, _] => cases h

/-- The parser returns: no access is out of bounds. -/
theorem exists_parseBindingResponse_eq_ok (msg : List UInt8) (tx : Bytes 12) :
    ∃ r, parseBindingResponse msg tx = .ok r := by
  match msg with
  | m0 :: m1 :: m2 :: m3 :: m4 :: m5 :: m6 :: m7 :: tail =>
    by_cases htail : 12 ≤ tail.length
    · exact ⟨_, parseBindingResponse_cons htail tx⟩
    · refine ⟨none, ?_⟩
      rw [parseBindingResponse, if_pos (by simp only [List.length_cons, headerLen]; omega)]
      rfl
  | [] | [_] | [_, _] | [_, _, _] | [_, _, _, _] | [_, _, _, _, _] | [_, _, _, _, _, _]
  | [_, _, _, _, _, _, _] => exact ⟨none, rfl⟩

/-! ## Encoded attributes -/

/-- An attribute as it is sent: the length of its value fits its field, and bytes fill it up to a
multiple of four. -/
structure SentAttribute extends Attribute where
  /-- The bytes that fill the value up. -/
  padding : List UInt8
  /-- The length fits in sixteen bits. -/
  length_value : value.length < 65536
  /-- The value is filled up to a multiple of four. -/
  length_padding : value.length + padding.length = paddedLen value.length

/-- The bytes of an attribute. -/
def SentAttribute.encode (x : SentAttribute) : List UInt8 :=
  beBytes 2 x.kind.toNat ++ beBytes 2 x.value.length ++ x.value ++ x.padding

/-- The bytes of a list of attributes. -/
def encodeAttributes (xs : List SentAttribute) : List UInt8 := xs.flatMap SentAttribute.encode

/-- The first attribute of a body that starts with it. -/
theorem attributes_encode_append (x : SentAttribute) (rest : List UInt8) :
    attributes (x.encode ++ rest) = x.toAttribute :: attributes rest := by
  have hlen := ofBE_pair x.length_value
  have hkind := (congrArg UInt16.ofNat (ofBE_pair x.kind.toNat_lt)).trans UInt16.ofNat_toNat
  have hencode : x.encode ++ rest =
      UInt8.ofNat (x.kind.toNat / 256) :: UInt8.ofNat x.kind.toNat ::
        UInt8.ofNat (x.value.length / 256) :: UInt8.ofNat x.value.length ::
          (x.value ++ (x.padding ++ rest)) := by
    rw [SentAttribute.encode, List.append_assoc, List.append_assoc]
    rfl
  have hdrop : (x.value ++ (x.padding ++ rest)).drop (paddedLen x.value.length) = rest := by
    rw [← List.append_assoc]
    exact List.drop_left' (by rw [List.length_append, x.length_padding])
  rw [hencode, attributes, hlen, hkind, if_pos (by simp), List.take_left, hdrop]

/-- What is written is read back. -/
theorem attributes_encodeAttributes (xs : List SentAttribute) :
    attributes (encodeAttributes xs) = xs.map SentAttribute.toAttribute := by
  induction xs with
  | nil =>
    change attributes [] = []
    rw [attributes]
    simp
  | cons x xs ih =>
    change attributes (x.encode ++ encodeAttributes xs) = _
    rw [attributes_encode_append, ih, List.map_cons]

/-- The XOR-MAPPED-ADDRESS of an address. -/
def xorMappedAddress (x : SocketAddrV4) : SentAttribute where
  kind := attrXorMappedAddress
  value := [0x00, 0x01] ++ beBytes 2 (xorCookie x).port.toNat ++
    [(xorCookie x).a, (xorCookie x).b, (xorCookie x).c, (xorCookie x).d]
  padding := []
  length_value := by simp
  length_padding := by simp [paddedLen]

/-- XORing twice with the cookie changes nothing. -/
theorem xorCookie_xorCookie (x : SocketAddrV4) : xorCookie (xorCookie x) = x := by
  simp only [xorCookie, UInt8.xor_assoc, UInt16.xor_assoc, UInt8.xor_self, UInt16.xor_self,
    UInt8.xor_zero, UInt16.xor_zero]

/-- The XOR-MAPPED-ADDRESS of an address is read as that address. -/
theorem xorMapped?_xorMappedAddress (x : SocketAddrV4) :
    (xorMappedAddress x).xorMapped? = some x := by
  have hport := (congrArg UInt16.ofNat (ofBE_pair (xorCookie x).port.toNat_lt)).trans
    UInt16.ofNat_toNat
  have hread : ipv4In (xorMappedAddress x).value = some (xorCookie x) := by
    change some (SocketAddrV4.mk _ _ _ _ (UInt16.ofNat (ofBE [_, _]))) = _
    rw [hport]
  have hkind : (xorMappedAddress x).kind = attrXorMappedAddress := rfl
  rw [Attribute.xorMapped?, if_pos hkind, hread, Option.map_some, xorCookie_xorCookie]

/-- The encoder builds the response with this one attribute. -/
theorem encodeSuccessXor_eq (tx : Bytes 12) (x : SocketAddrV4) :
    encodeSuccessXor tx x = response tx (encodeAttributes [xorMappedAddress x]) := by
  rfl

/-- A message parses without an access out of bounds. It gives an address exactly when it is a
Binding Success response to the transaction, with any bytes behind it, and the address is the one
of the first valid XOR-MAPPED-ADDRESS of the body, or else of the first valid MAPPED-ADDRESS. The
response with the XOR-MAPPED-ADDRESS of an address gives that address, whatever other attributes
are around it, also when it is the only one, as the encoder builds it. -/
theorem parseBindingResponse_mappedAddress (msg : List UInt8) (tx : Bytes 12) :
    (∃ r, parseBindingResponse msg tx = .ok r ∧
      ∀ x, r = some x ↔ ∃ body rest, body.length < 65536 ∧ msg = response tx body ++ rest ∧
        ((attributes body).findSome? Attribute.xorMapped?).or
          ((attributes body).findSome? Attribute.mapped?) = some x) ∧
    (∀ (x : SocketAddrV4) (before after : List SentAttribute),
      (∀ y ∈ before, y.xorMapped? = none) →
      (encodeAttributes (before ++ xorMappedAddress x :: after)).length < 65536 →
      parseBindingResponse
        (response tx (encodeAttributes (before ++ xorMappedAddress x :: after))) tx =
          .ok (some x)) ∧
    ∀ x, parseBindingResponse (encodeSuccessXor tx x) tx = .ok (some x) := by
  have hround : ∀ (x : SocketAddrV4) (before after : List SentAttribute),
      (∀ y ∈ before, y.xorMapped? = none) →
      (encodeAttributes (before ++ xorMappedAddress x :: after)).length < 65536 →
      parseBindingResponse
        (response tx (encodeAttributes (before ++ xorMappedAddress x :: after))) tx =
          .ok (some x) := by
    intro x before after hbefore hlen
    have hparse := parseBindingResponse_response hlen tx []
    rw [List.append_nil, attributes_encodeAttributes, List.map_append, List.map_cons] at hparse
    -- No attribute before it answers, so the walk comes to it.
    have hnone : (before.map SentAttribute.toAttribute).findSome? Attribute.xorMapped? = none := by
      rw [List.findSome?_eq_none_iff]
      intro y hy
      obtain ⟨z, hz, rfl⟩ := List.mem_map.mp hy
      exact hbefore z hz
    rw [hparse, mappedAddress, List.findSome?_append, hnone, List.findSome?_cons,
      xorMapped?_xorMappedAddress]
    rfl
  refine ⟨?_, hround, fun x => ?_⟩
  -- No read is out of bounds, and what is accepted is a response.
  · obtain ⟨r, hr⟩ := exists_parseBindingResponse_eq_ok msg tx
    refine ⟨r, hr, fun x => ⟨?_, ?_⟩⟩
    · rintro rfl
      obtain ⟨body, rest, hbody, rfl⟩ := exists_response hr
      rw [parseBindingResponse_response hbody] at hr
      exact ⟨body, rest, hbody, rfl, Except.ok.inj hr⟩
    · rintro ⟨body, rest, hbody, rfl, hx⟩
      rw [parseBindingResponse_response hbody] at hr
      rw [← Except.ok.inj hr, ← hx]
      rfl
  · rw [encodeSuccessXor_eq]
    exact hround x [] [] (by simp) (by simp [encodeAttributes, SentAttribute.encode,
      xorMappedAddress])

end LowBand.Lowbandd.Stun
