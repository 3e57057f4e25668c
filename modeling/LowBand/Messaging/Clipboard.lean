import Mathlib.Algebra.Ring.Nat
import LowBand.Lib.Path
import LowBand.Lib.Result
import LowBand.Messaging.Wire

/-!
# The clipboard gateway

`clipboard.rs`: text and file offers of the peer are accepted while a grant is held, as in the other
sessions, and when their content keeps to limits of its own. `applyRemote` and `applyRemoteFiles`
check the grant first and the content after it. `TextWithinLimits` and `OfferWithinLimits` say what
the limits are; for an offer in terms of the true sum of the sizes, which `total_bytes` computes
modulo `2^64`. An offer whose sum is beyond that can be applied all the same
(`applied_within_limit_iff`).

`safe_file_name` is to let single path components pass. It looks for separators, NUL and two dots in
a row, but not for colons or the names of devices, and of what Windows drops at the end of a name it
looks for white space only: `safe_name_is_child_iff`.
-/

namespace LowBand.Messaging

open Lib

/-- `CLIPBOARD_MAX_FILE_BYTES`. -/
def clipboardMaxFileBytes : UInt64 := 512 * 1024 * 1024

/-- `ClipboardError`. -/
inductive ClipboardError where
  /-- No grant is held. -/
  | noActiveGrant
  /-- The text is too long. -/
  | textTooLong (len : ℕ)
  /-- The assisted user withdrew consent. -/
  | consentWithdrawn
  /-- The offer has too many files. -/
  | tooManyFiles (count : ℕ)
  /-- The files of the offer are too large. -/
  | filesTooLarge (total : UInt64)
  /-- A file has a name that is not safe. -/
  | unsafeFileName (name : String)
deriving DecidableEq

/-! ## Content -/

/-- `total_bytes`. -/
def ClipboardFileOffer.totalBytes (offer : ClipboardFileOffer) : UInt64 :=
  offer.entries.foldl (fun total e => total + e.size) 0

/-- `char::is_whitespace`: the Unicode property `White_Space`. -/
def isWhitespace (c : Char) : Bool :=
  (0x9 ≤ c.toNat && c.toNat ≤ 0xD) || c.toNat = 0x20 || c.toNat = 0x85 || c.toNat = 0xA0 ||
    c.toNat = 0x1680 || (0x2000 ≤ c.toNat && c.toNat ≤ 0x200A) || c.toNat = 0x2028 ||
    c.toNat = 0x2029 || c.toNat = 0x202F || c.toNat = 0x205F || c.toNat = 0x3000

/-- `char::is_control`: the Unicode category `Cc`. -/
def isControl (c : Char) : Bool := c.toNat ≤ 0x1F || (0x7F ≤ c.toNat && c.toNat ≤ 0x9F)

/-- `str::trim`, on the characters. -/
def trim (cs : List Char) : List Char :=
  ((cs.dropWhile isWhitespace).reverse.dropWhile isWhitespace).reverse

/-- `str::contains`, on the characters. -/
def containsStr (cs pattern : List Char) : Bool := cs.tails.any (pattern.isPrefixOf ·)

/-- `safe_file_name`. -/
def safeFileName (name : String) : Bool :=
  let cs := name.toList
  !cs.isEmpty
    && (strBytes name).length ≤ 255
    && name ≠ "."
    && name ≠ ".."
    && !cs.contains '/'
    && !cs.contains '\\'
    && !cs.contains '\x00'
    && !containsStr cs ['.', '.']
    && trim cs = cs
    && !cs.any isControl

/-- The check of a text, after that of the grant. -/
def checkText (text : String) : Except ClipboardError Unit :=
  let len := (strBytes text).length
  if len > clipboardMaxTextBytes then .error (.textTooLong len) else .ok ()

/-- The checks of an offer, after that of the grant. The name reported is the first that is not
safe. -/
def checkOffer (offer : ClipboardFileOffer) : Except ClipboardError Unit :=
  if offer.entries.length > clipboardMaxFiles then .error (.tooManyFiles offer.entries.length)
  else if offer.totalBytes > clipboardMaxFileBytes then .error (.filesTooLarge offer.totalBytes)
  else match offer.entries.find? (fun e => !safeFileName e.name) with
    | some e => .error (.unsafeFileName e.name)
    | none => .ok ()

/-- A text that the gateway accepts. -/
def TextWithinLimits (text : String) : Prop := (strBytes text).length ≤ clipboardMaxTextBytes

/-- An offer that the gateway accepts: it has few files, which are not too large together and have
safe names. -/
structure OfferWithinLimits (offer : ClipboardFileOffer) : Prop where
  /-- It has at most 64 files. -/
  count : offer.entries.length ≤ clipboardMaxFiles
  /-- They have at most 512 MiB together. -/
  total : (offer.entries.map (·.size.toNat)).sum ≤ clipboardMaxFileBytes.toNat
  /-- Their names are safe. -/
  names : ∀ e ∈ offer.entries, safeFileName e.name = true

/-- A text passes exactly when it is within the limits. -/
theorem checkText_eq_ok {text : String} : checkText text = .ok () ↔ TextWithinLimits text := by
  simp [checkText, TextWithinLimits]

/-- The total is the sum of the sizes modulo `2^64`. -/
theorem toNat_foldl_size (entries : List ClipboardFileEntry) (total : UInt64) :
    (entries.foldl (fun total e => total + e.size) total).toNat =
      (total.toNat + (entries.map (·.size.toNat)).sum) % 2 ^ 64 := by
  induction entries generalizing total with
  | nil => simp [Nat.mod_eq_of_lt total.toNat_lt]
  | cons e entries ih =>
    rw [List.foldl_cons, ih, UInt64.toNat_add, List.map_cons, List.sum_cons, Nat.mod_add_mod,
      Nat.add_assoc]

/-- Below the limit the total is the sum of the sizes. -/
theorem totalBytes_le {offer : ClipboardFileOffer}
    (h : (offer.entries.map (·.size.toNat)).sum ≤ clipboardMaxFileBytes.toNat) :
    offer.totalBytes ≤ clipboardMaxFileBytes := by
  rw [UInt64.le_iff_toNat_le, ClipboardFileOffer.totalBytes, toNat_foldl_size, UInt64.toNat_zero,
    Nat.zero_add]
  exact (Nat.mod_le _ _).trans h

/-- An offer within the limits passes. -/
theorem checkOffer_of_withinLimits {offer : ClipboardFileOffer} (h : OfferWithinLimits offer) :
    checkOffer offer = .ok () := by
  have hfind : offer.entries.find? (fun e => !safeFileName e.name) = none := by
    rw [List.find?_eq_none]
    intro e he
    simp [h.names e he]
  simp only [checkOffer, Nat.not_lt.mpr h.count, UInt64.not_lt.mpr (totalBytes_le h.total), hfind,
    if_false]

/-! ## File names -/

/-- The end of a text without white space at its ends is none. -/
theorem not_isWhitespace_getLast {cs : List Char} (h : trim cs = cs) {c : Char}
    (hc : cs.getLast? = some c) : isWhitespace c = false := by
  have hrev : (cs.dropWhile isWhitespace).reverse.dropWhile isWhitespace = cs.reverse := by
    rw [← List.reverse_inj, List.reverse_reverse]
    exact h
  have hnot := List.head?_dropWhile_not isWhitespace (cs.dropWhile isWhitespace).reverse
  rw [hrev, List.head?_reverse, hc] at hnot
  simpa using hnot

/-- The accepted names without a colon and a final dot are the single components. -/
theorem isComponent_iff_of_safe {name : String} (h : safeFileName name = true) :
    Path.IsComponent name.toList ↔ ':' ∉ name.toList ∧ name.toList.getLast? ≠ some '.' := by
  simp only [safeFileName, Bool.and_eq_true, Bool.not_eq_true', List.isEmpty_eq_false_iff,
    decide_eq_true_eq, List.contains_eq_mem, decide_eq_false_iff_not] at h
  obtain ⟨⟨⟨⟨⟨⟨⟨⟨⟨hempty, -⟩, -⟩, -⟩, hslash⟩, hback⟩, hnul⟩, -⟩, htrim⟩, -⟩ := h
  constructor
  · intro hname
    exact ⟨hname.colon, fun hlast => (hname.last _ hlast).1 rfl⟩
  · rintro ⟨hcolon, hlast⟩
    have hend : ∀ c ∈ name.toList.getLast?, c ≠ '.' ∧ c ≠ ' ' := by
      intro c hc
      constructor
      · rintro rfl
        exact hlast hc
      · rintro rfl
        exact absurd (not_isWhitespace_getLast htrim hc) (by decide)
    refine ⟨hslash, hback, hcolon, hnul, hempty, ?_, hend⟩
    -- the last character is no dot
    have hget := List.getLast?_eq_some_getLast hempty
    exact ⟨_, List.mem_of_getLast? hget, (hend _ hget).1⟩

/-- A name that is a single component on Unix and on Windows, and a direct child with that very name
of every directory that it is joined to. -/
def IsChildName (name : List Char) : Prop :=
  Path.IsComponent name ∧ ∀ dir, Path.unixJoin dir name = some (dir ++ [name]) ∧
    Path.windowsJoin dir name = some ⟨dir ++ [name], none⟩

/-- Every name that `safe_file_name` accepts is that of a child if and only if it has no colon, does
not end in a dot and is not the name of a device of Windows. -/
theorem safe_name_is_child_iff (name : String) (h : safeFileName name = true) :
    IsChildName name.toList ↔ (':' ∉ name.toList ∧ name.toList.getLast? ≠ some '.') ∧
      Path.isDevice name.toList = false := by
  rw [← isComponent_iff_of_safe h]
  constructor
  · rintro ⟨hname, hchild⟩
    refine ⟨hname, Bool.eq_false_iff.mpr fun hdevice => ?_⟩
    have hjoin := (hchild []).2
    rw [hname.windowsJoin_device hdevice] at hjoin
    cases hjoin
  · rintro ⟨hname, hdevice⟩
    exact ⟨hname, fun dir => ⟨hname.unixJoin dir, hname.windowsJoin hdevice dir⟩⟩

/-- A text file with a plain name is a child. -/
theorem safe_name_is_child_txt :
    safeFileName "notes.txt" = true ∧ IsChildName "notes.txt".toList :=
  ⟨by decide +kernel, (safe_name_is_child_iff "notes.txt" (by decide +kernel)).mpr
    ⟨by simp, by decide +kernel⟩⟩

/-- A name on another drive is accepted, one whose final dot Windows drops, and that of a device
with an extension. -/
theorem not_safe_name_is_child :
    ¬ (∀ name, safeFileName name = true → IsChildName name.toList) ∧
      safeFileName "C:x" = true ∧ Path.windowsJoin [] "C:x".toList = none ∧
      safeFileName "x." = true ∧
      Path.windowsJoin [] "x.".toList = some ⟨[['x']], none⟩ ∧
      safeFileName "com1.txt" = true ∧ Path.windowsJoin [] "com1.txt".toList = none := by
  have hsafe : safeFileName "C:x" = true := by decide +kernel
  refine ⟨fun h => ?_, hsafe, by decide +kernel, by decide +kernel, by decide +kernel,
    by decide +kernel, by decide +kernel⟩
  exact (h "C:x" hsafe).1.colon (by simp)

/-! ## The gateway -/

/-- `ClipboardGrant`. It has no expiry. -/
structure ClipboardGrant where
  /-- The handle it is bound to, if any. -/
  revocation : Option ConsentRevocationHandle
deriving DecidableEq

namespace ClipboardGrant

/-- `ClipboardGrant::new`. -/
def new : ClipboardGrant := ⟨none⟩

/-- What the check reads of it. -/
def token (g : ClipboardGrant) : Token := ⟨none, g.revocation⟩

end ClipboardGrant

/-- `ClipboardSession`: the clipboard gateway of one session. -/
structure ClipboardSession where
  /-- The grant it holds. -/
  grant : Option ClipboardGrant
deriving DecidableEq

/-- How the gateway reports that its grant is not live. As the grant has no expiry, the case of an
expired grant does not come up. -/
def ClipboardError.ofCapability : CapabilityError → ClipboardError
  | .noActiveGrant => .noActiveGrant
  | .grantExpired => .noActiveGrant
  | .consentWithdrawn => .consentWithdrawn

namespace ClipboardSession

/-- `ClipboardSession::new`. -/
def new : ClipboardSession := ⟨none⟩

/-- `set_grant`. -/
def setGrant (_ : ClipboardSession) (grant : Option ClipboardGrant) : ClipboardSession := ⟨grant⟩

/-- `is_granted`. -/
def isGranted (s : ClipboardSession) (withdrawn : Withdrawn) : Bool :=
  match s.grant with
  | none => false
  | some g => !g.revocation.any withdrawn

/-- `check_grant`. -/
def checkGrant (s : ClipboardSession) (withdrawn : Withdrawn) : Except ClipboardError Unit :=
  match s.grant with
  | none => .error .noActiveGrant
  | some g => if g.revocation.any withdrawn then .error .consentWithdrawn else .ok ()

/-- `apply_remote`. -/
def applyRemote (s : ClipboardSession) (withdrawn : Withdrawn) (text : String) :
    Except ClipboardError Unit := do
  s.checkGrant withdrawn
  checkText text

/-- `apply_remote_files`. -/
def applyRemoteFiles (s : ClipboardSession) (withdrawn : Withdrawn) (offer : ClipboardFileOffer) :
    Except ClipboardError Unit := do
  s.checkGrant withdrawn
  checkOffer offer

/-- The grant is checked by its token, whatever the clock shows. -/
theorem checkGrant_eq (s : ClipboardSession) (withdrawn : Withdrawn) (now : ℕ) :
    s.checkGrant withdrawn =
      (Token.check (s.grant.map ClipboardGrant.token) withdrawn now).mapError .ofCapability := by
  unfold checkGrant Token.check
  cases s.grant with
  | none => rfl
  | some g =>
    by_cases hw : g.revocation.any withdrawn = true
    · simp [Messaging.checkGrant, Token.isWithdrawn, ClipboardGrant.token, hw, Except.mapError,
        ClipboardError.ofCapability]
    · simp [Messaging.checkGrant, Token.isWithdrawn, Token.isExpired, ClipboardGrant.token, hw,
        Except.mapError]

/-- `is_granted` says whether the check of the grant passes. -/
theorem isGranted_iff {s : ClipboardSession} {withdrawn : Withdrawn} :
    s.isGranted withdrawn = true ↔ s.checkGrant withdrawn = .ok () := by
  unfold isGranted checkGrant
  cases s.grant with
  | none => simp
  | some g => cases hw : g.revocation.any withdrawn <;> simp

/-! ## The limit of the sizes -/

/-- The true sum of the sizes of an offer. -/
def sumOfSizes (offer : ClipboardFileOffer) : ℕ := (offer.entries.map (·.size.toNat)).sum

/-- The total is computed modulo `2^64`. -/
theorem toNat_totalBytes (offer : ClipboardFileOffer) :
    offer.totalBytes.toNat = sumOfSizes offer % 2 ^ 64 := by
  rw [ClipboardFileOffer.totalBytes, toNat_foldl_size, UInt64.toNat_zero, Nat.zero_add]
  rfl

/-- The checks that an offer has to pass. -/
theorem checkOffer_eq_ok {offer : ClipboardFileOffer} :
    checkOffer offer = .ok () ↔ offer.entries.length ≤ clipboardMaxFiles ∧
      sumOfSizes offer % 2 ^ 64 ≤ clipboardMaxFileBytes.toNat ∧
      ∀ e ∈ offer.entries, safeFileName e.name = true := by
  rw [← toNat_totalBytes, ← UInt64.le_iff_toNat_le]
  unfold checkOffer
  by_cases hcount : offer.entries.length > clipboardMaxFiles
  · simp only [if_pos hcount, Nat.not_le.mpr hcount, false_and, reduceCtorEq]
  by_cases htotal : offer.totalBytes > clipboardMaxFileBytes
  · simp only [if_neg hcount, if_pos htotal, UInt64.not_le.mpr htotal, false_and, and_false,
      reduceCtorEq]
  simp only [if_neg hcount, if_neg htotal, Nat.not_lt.mp hcount, UInt64.not_lt.mp htotal, true_and]
  -- The first unsafe name, if there is one, refuses the offer.
  cases hfind : offer.entries.find? (fun e => !safeFileName e.name) with
  | none =>
    refine iff_of_true rfl fun e he => ?_
    simpa using List.find?_eq_none.mp hfind e he
  | some e =>
    refine iff_of_false nofun fun hall => ?_
    have hunsafe := List.find?_some hfind
    rw [hall e (List.mem_of_find?_eq_some hfind)] at hunsafe
    cases hunsafe

/-- An offer is applied when a grant is held and the offer passes its checks. -/
theorem applyRemoteFiles_eq_ok {s : ClipboardSession} {withdrawn : Withdrawn}
    {offer : ClipboardFileOffer} :
    s.applyRemoteFiles withdrawn offer = .ok () ↔
      s.isGranted withdrawn = true ∧ checkOffer offer = .ok () := by
  rw [isGranted_iff, applyRemoteFiles, bind_eq_ok]
  constructor
  · rintro ⟨⟨⟩, hgrant, hoffer⟩
    exact ⟨hgrant, hoffer⟩
  · rintro ⟨hgrant, hoffer⟩
    exact ⟨(), hgrant, hoffer⟩

/-- For every session and every offer: that the offer is applied only when the true sum of its sizes
is within the limit holds if and only if, for an offer that nothing else refuses, the sum is below
`2^64` or leaves a remainder above the limit. -/
theorem applied_within_limit_iff (s : ClipboardSession) (withdrawn : Withdrawn)
    (offer : ClipboardFileOffer) :
    (s.applyRemoteFiles withdrawn offer = .ok () →
        sumOfSizes offer ≤ clipboardMaxFileBytes.toNat) ↔
      (s.isGranted withdrawn = true → offer.entries.length ≤ clipboardMaxFiles →
        (∀ e ∈ offer.entries, safeFileName e.name = true) →
        sumOfSizes offer < 2 ^ 64 ∨
          clipboardMaxFileBytes.toNat < sumOfSizes offer % 2 ^ 64) := by
  have hmax : clipboardMaxFileBytes.toNat < 2 ^ 64 := clipboardMaxFileBytes.toNat_lt
  rw [applyRemoteFiles_eq_ok, checkOffer_eq_ok]
  constructor
  · intro h hgrant hcount hnames
    by_cases hrem : clipboardMaxFileBytes.toNat < sumOfSizes offer % 2 ^ 64
    · exact .inr hrem
    · exact .inl ((h ⟨hgrant, hcount, Nat.not_lt.mp hrem, hnames⟩).trans_lt hmax)
  · rintro h ⟨hgrant, hcount, hrem, hnames⟩
    rcases h hgrant hcount hnames with hsum | habove
    · rwa [Nat.mod_eq_of_lt hsum] at hrem
    · exact absurd habove (Nat.not_lt.mpr hrem)

/-- Two files with `2^64` bytes together are applied, as the total of their sizes is zero. -/
theorem not_applied_within_limit :
    ¬ ∀ (s : ClipboardSession) (withdrawn : Withdrawn) (offer : ClipboardFileOffer),
      s.applyRemoteFiles withdrawn offer = .ok () →
        sumOfSizes offer ≤ clipboardMaxFileBytes.toNat := by
  intro h
  have happlied := h ⟨some .new⟩ (fun _ => false) ⟨[⟨"a", 2 ^ 64 - 1⟩, ⟨"b", 1⟩]⟩
  revert happlied
  decide +kernel

end ClipboardSession

end LowBand.Messaging
