import Mathlib.Data.Nat.Notation

/-!
# Grants

`grants.rs`: a session holds at most one grant and checks it on every operation. An `Instant` is a
number of nanoseconds, read by the caller. A revocation handle is a shared flag, so a grant holds
the identity of its flag, and an operation is given what the flags show when it runs.

The sessions repeat one check. `checkGrant` is that check over any type of grants, and a `Token` is
what it reads of a grant. Each session's operation is the check of its grant's token
(`applyFrame_eq`, `applyEvent_eq`, `applyChunk_eq`), and each `is_granted` says whether the check
passes.
-/

namespace LowBand.Messaging

/-- `ConsentRevocationHandle`: the identity of a shared flag. -/
structure ConsentRevocationHandle where
  /-- Which flag it is. -/
  flag : ℕ
deriving DecidableEq

/-- What the flags show at one moment: whether consent was withdrawn through a handle. -/
abbrev Withdrawn := ConsentRevocationHandle → Bool

/-- `CapabilityError`. -/
inductive CapabilityError where
  /-- No grant is held. -/
  | noActiveGrant
  /-- The time of the grant has elapsed. -/
  | grantExpired
  /-- The assisted user withdrew consent. -/
  | consentWithdrawn
deriving DecidableEq

/-! ## The check that the sessions repeat -/

/-- A grant is held, consent was not withdrawn and the time has not elapsed. -/
def checkGrant {γ : Type} (isWithdrawn isExpired : γ → Bool) (grant : Option γ) :
    Except CapabilityError Unit :=
  match grant with
  | none => .error .noActiveGrant
  | some g =>
    if isWithdrawn g then .error .consentWithdrawn
    else if isExpired g then .error .grantExpired
    else .ok ()

/-- The same question, answered without a reason. -/
def isGrantLive {γ : Type} (isWithdrawn isExpired : γ → Bool) (grant : Option γ) : Bool :=
  match grant with
  | none => false
  | some g => !isWithdrawn g && !isExpired g

/-- The check passes when the grant is there, not withdrawn and not expired. -/
theorem checkGrant_eq_ok {γ : Type} {isWithdrawn isExpired : γ → Bool} {grant : Option γ} :
    checkGrant isWithdrawn isExpired grant = .ok () ↔
      ∃ g, grant = some g ∧ isWithdrawn g = false ∧ isExpired g = false := by
  cases grant with
  | none => simp [checkGrant]
  | some g => cases hw : isWithdrawn g <;> cases he : isExpired g <;> simp [checkGrant, hw, he]

/-- The answer without a reason is whether the check passes. -/
theorem isGrantLive_iff {γ : Type} {isWithdrawn isExpired : γ → Bool} {grant : Option γ} :
    isGrantLive isWithdrawn isExpired grant = true ↔
      checkGrant isWithdrawn isExpired grant = .ok () := by
  cases grant with
  | none => simp [isGrantLive, checkGrant]
  | some g =>
    cases hw : isWithdrawn g <;> cases he : isExpired g <;>
      simp [isGrantLive, checkGrant, hw, he]

/-- What the check reads of a grant. -/
structure Token where
  /-- When it expires, if it does. -/
  expiresAt : Option ℕ
  /-- The handle it is bound to, if any. -/
  revocation : Option ConsentRevocationHandle
deriving DecidableEq

namespace Token

/-- The time has elapsed, with the clock at `now`. -/
def isExpired (t : Token) (now : ℕ) : Bool := t.expiresAt.any (· ≤ now)

/-- Consent was withdrawn. -/
def isWithdrawn (t : Token) (withdrawn : Withdrawn) : Bool := t.revocation.any withdrawn

/-- The check of a token. -/
def check (token : Option Token) (withdrawn : Withdrawn) (now : ℕ) : Except CapabilityError Unit :=
  checkGrant (·.isWithdrawn withdrawn) (·.isExpired now) token

/-- The check passes when there is a token whose handle, if any, was not used, and whose time, if
any, is not over. -/
theorem check_eq_ok {token : Option Token} {withdrawn : Withdrawn} {now : ℕ} :
    check token withdrawn now = .ok () ↔
      ∃ t, token = some t ∧ (∀ h, t.revocation = some h → withdrawn h = false) ∧
        ∀ e, t.expiresAt = some e → now < e := by
  rw [check, checkGrant_eq_ok]
  simp [isWithdrawn, isExpired, Option.any_eq_false]

/-- A token whose handle was used does not pass. -/
theorem check_of_withdrawn {t : Token} {h : ConsentRevocationHandle} {withdrawn : Withdrawn}
    {now : ℕ} (ht : t.revocation = some h) (hw : withdrawn h = true) :
    check (some t) withdrawn now = .error .consentWithdrawn := by
  simp [check, checkGrant, isWithdrawn, ht, hw]

/-- The check reads only the flag of the token's own handle. -/
theorem check_congr {token : Option Token} {withdrawn withdrawn' : Withdrawn} {now : ℕ}
    (h : ∀ t, token = some t → ∀ r, t.revocation = some r → withdrawn r = withdrawn' r) :
    check token withdrawn now = check token withdrawn' now := by
  cases token with
  | none => rfl
  | some t =>
    have hw : t.isWithdrawn withdrawn = t.isWithdrawn withdrawn' := by
      unfold isWithdrawn
      cases hr : t.revocation with
      | none => rfl
      | some r => exact h t rfl r hr
    simp only [check, checkGrant, hw]

end Token

/-! ## View -/

/-- `ViewGrant`. -/
structure ViewGrant where
  /-- When it expires, if it does. -/
  expiresAt : Option ℕ
  /-- The handle it is bound to, if any. -/
  revocation : Option ConsentRevocationHandle
deriving DecidableEq

namespace ViewGrant

/-- `ViewGrant::new`: a grant that never expires. -/
def new : ViewGrant := ⟨none, none⟩

/-- `is_expired`, with the clock at `now`. -/
def isExpired (g : ViewGrant) (now : ℕ) : Bool := g.expiresAt.any (· ≤ now)

/-- Whether consent was withdrawn through the handle the grant is bound to. -/
def isWithdrawn (g : ViewGrant) (withdrawn : Withdrawn) : Bool := g.revocation.any withdrawn

/-- What the check reads of it. -/
def token (g : ViewGrant) : Token := ⟨g.expiresAt, g.revocation⟩

end ViewGrant

/-- `ViewSession`: the screen-view gateway of one session. -/
structure ViewSession where
  /-- The grant it holds. -/
  grant : Option ViewGrant
deriving DecidableEq

namespace ViewSession

/-- `ViewSession::new`. -/
def new : ViewSession := ⟨none⟩

/-- `set_grant`. -/
def setGrant (_ : ViewSession) (grant : Option ViewGrant) : ViewSession := ⟨grant⟩

/-- `is_granted`. -/
def isGranted (s : ViewSession) (withdrawn : Withdrawn) (now : ℕ) : Bool :=
  isGrantLive (·.isWithdrawn withdrawn) (·.isExpired now) s.grant

/-- `apply_frame`. -/
def applyFrame (s : ViewSession) (withdrawn : Withdrawn) (now : ℕ) :
    Except CapabilityError Unit :=
  checkGrant (·.isWithdrawn withdrawn) (·.isExpired now) s.grant

/-- A frame is checked against the token of the grant. -/
theorem applyFrame_eq (s : ViewSession) (withdrawn : Withdrawn) (now : ℕ) :
    s.applyFrame withdrawn now = Token.check (s.grant.map ViewGrant.token) withdrawn now := by
  unfold applyFrame Token.check
  cases s.grant <;> rfl

/-- `is_granted` says whether a frame is accepted. -/
theorem isGranted_iff {s : ViewSession} {withdrawn : Withdrawn} {now : ℕ} :
    s.isGranted withdrawn now = true ↔ s.applyFrame withdrawn now = .ok () :=
  isGrantLive_iff

end ViewSession

/-! ## Control -/

/-- `ControlGrant`. -/
structure ControlGrant where
  /-- When it expires, if it does. -/
  expiresAt : Option ℕ
  /-- The handle it is bound to, if any. -/
  revocation : Option ConsentRevocationHandle
deriving DecidableEq

namespace ControlGrant

/-- `ControlGrant::new`: a grant that never expires. -/
def new : ControlGrant := ⟨none, none⟩

/-- `is_expired`, with the clock at `now`. -/
def isExpired (g : ControlGrant) (now : ℕ) : Bool := g.expiresAt.any (· ≤ now)

/-- Whether consent was withdrawn through the handle the grant is bound to. -/
def isWithdrawn (g : ControlGrant) (withdrawn : Withdrawn) : Bool := g.revocation.any withdrawn

/-- What the check reads of it. -/
def token (g : ControlGrant) : Token := ⟨g.expiresAt, g.revocation⟩

end ControlGrant

/-- `ControlSession`: the input-injection gateway of one session. -/
structure ControlSession where
  /-- The grant it holds. -/
  grant : Option ControlGrant
deriving DecidableEq

namespace ControlSession

/-- `ControlSession::new`. -/
def new : ControlSession := ⟨none⟩

/-- `set_grant`. -/
def setGrant (_ : ControlSession) (grant : Option ControlGrant) : ControlSession := ⟨grant⟩

/-- `apply_event`. -/
def applyEvent (s : ControlSession) (withdrawn : Withdrawn) (now : ℕ) :
    Except CapabilityError Unit :=
  match s.grant with
  | none => .error .noActiveGrant
  | some g =>
    if g.isWithdrawn withdrawn then .error .consentWithdrawn
    else if g.isExpired now then .error .grantExpired
    else .ok ()

/-- `is_granted`. -/
def isGranted (s : ControlSession) (withdrawn : Withdrawn) (now : ℕ) : Bool :=
  isGrantLive (·.isWithdrawn withdrawn) (·.isExpired now) s.grant

/-- An event is checked against the token of the grant. -/
theorem applyEvent_eq (s : ControlSession) (withdrawn : Withdrawn) (now : ℕ) :
    s.applyEvent withdrawn now = Token.check (s.grant.map ControlGrant.token) withdrawn now := by
  unfold applyEvent Token.check
  cases s.grant <;> rfl

/-- `is_granted` says whether an event is accepted. -/
theorem isGranted_iff {s : ControlSession} {withdrawn : Withdrawn} {now : ℕ} :
    s.isGranted withdrawn now = true ↔ s.applyEvent withdrawn now = .ok () := by
  rw [applyEvent_eq, Token.check, isGranted, isGrantLive_iff]
  cases s.grant <;> rfl

end ControlSession

/-! ## File transfer -/

/-- `FileGrant`. It has no expiry. -/
structure FileGrant where
  /-- The handle it is bound to, if any. -/
  revocation : Option ConsentRevocationHandle
deriving DecidableEq

namespace FileGrant

/-- `FileGrant::new`. -/
def new : FileGrant := ⟨none⟩

/-- What the check reads of it. -/
def token (g : FileGrant) : Token := ⟨none, g.revocation⟩

end FileGrant

/-- `FileSession`: the file-transfer gateway of one session. -/
structure FileSession where
  /-- The grant it holds. -/
  grant : Option FileGrant
deriving DecidableEq

namespace FileSession

/-- `FileSession::new`. -/
def new : FileSession := ⟨none⟩

/-- `set_grant`. -/
def setGrant (_ : FileSession) (grant : Option FileGrant) : FileSession := ⟨grant⟩

/-- `is_granted`. -/
def isGranted (s : FileSession) (withdrawn : Withdrawn) : Bool :=
  match s.grant with
  | none => false
  | some g => !g.revocation.any withdrawn

/-- `apply_chunk`. The bytes are not looked at. -/
def applyChunk (s : FileSession) (withdrawn : Withdrawn) (_bytes : List UInt8) :
    Except CapabilityError Unit :=
  match s.grant with
  | none => .error .noActiveGrant
  | some g => if g.revocation.any withdrawn then .error .consentWithdrawn else .ok ()

/-- A chunk is checked against the token of the grant, whatever the clock shows. -/
theorem applyChunk_eq (s : FileSession) (withdrawn : Withdrawn) (bytes : List UInt8) (now : ℕ) :
    s.applyChunk withdrawn bytes = Token.check (s.grant.map FileGrant.token) withdrawn now := by
  unfold applyChunk Token.check
  cases s.grant <;> rfl

/-- `is_granted` says whether a chunk is accepted. -/
theorem isGranted_iff {s : FileSession} {withdrawn : Withdrawn} (bytes : List UInt8) :
    s.isGranted withdrawn = true ↔ s.applyChunk withdrawn bytes = .ok () := by
  unfold isGranted applyChunk
  cases s.grant with
  | none => simp
  | some g => cases hw : g.revocation.any withdrawn <;> simp

end FileSession

end LowBand.Messaging
