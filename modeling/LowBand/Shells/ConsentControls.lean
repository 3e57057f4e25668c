import LowBand.Lib.Run
import LowBand.Lib.Since
import Mathlib.Tactic.Common

/-!
# The consent screen and the controls over access

What the assisted user sees of access to their machine: `consent_screen.rs` asks for it, and
`panic_control.rs` and `revocation_control.rs` show whether it can be taken back or was. These two
are one machine with other names (`SeverControl`).

Each of them follows from the history of its events alone. A choice is there for the daemon exactly
when it was made while a request was pending and not reset since (`pendingGrant_iff`). The flags of
the controls say of the history what their names say (`flags_iff`), and so does what is shown
(`access_shown`); that severed access is not shown as live before the next grant is `severed_run`.
-/

namespace LowBand.Shells

open Lib

/-! ## The consent screen -/

/-- `GrantChoice`. -/
inductive GrantChoice where
  | viewOnly
  | viewAndControl
  deriving DecidableEq

/-- `ConsentScreenState`. -/
inductive ConsentScreenState where
  | idle
  | pendingRequest
  | granted (choice : GrantChoice)
  | denied
  deriving DecidableEq

/-- `ConsentScreen`. -/
structure ConsentScreen where
  state : ConsentScreenState
  deriving DecidableEq

namespace ConsentScreen

/-- `new`. -/
def new : ConsentScreen := ⟨.idle⟩

/-- `on_consent_request`. -/
def onConsentRequest (screen : ConsentScreen) : ConsentScreen :=
  if screen.state = .idle then ⟨.pendingRequest⟩ else screen

/-- `grant`. -/
def grant (screen : ConsentScreen) (choice : GrantChoice) : ConsentScreen :=
  if screen.state = .pendingRequest then ⟨.granted choice⟩ else screen

/-- `deny`. -/
def deny (screen : ConsentScreen) : ConsentScreen :=
  if screen.state = .pendingRequest then ⟨.denied⟩ else screen

/-- `reset`. -/
def reset (_ : ConsentScreen) : ConsentScreen := ⟨.idle⟩

/-- `on_session_ended`. -/
def onSessionEnded (_ : ConsentScreen) : ConsentScreen := ⟨.idle⟩

/-- `pending_grant`. -/
def pendingGrant (screen : ConsentScreen) : Option GrantChoice :=
  match screen.state with
  | .granted choice => some choice
  | _ => none

/-- What happens to the screen. -/
inductive Event where
  | consentRequest
  | grant (choice : GrantChoice)
  | deny
  | reset
  | sessionEnded
  deriving DecidableEq

namespace Event

/-- The screen is reset. -/
def Resets (e : Event) : Prop := e = .reset ∨ e = .sessionEnded

/-- The user decides. -/
def Decides (e : Event) : Prop := (∃ choice, e = .grant choice) ∨ e = .deny

end Event

/-- One event. -/
def step (screen : ConsentScreen) : Event → ConsentScreen
  | .consentRequest => screen.onConsentRequest
  | .grant choice => screen.grant choice
  | .deny => screen.deny
  | .reset => screen.reset
  | .sessionEnded => screen.onSessionEnded

/-- The screen after the events of `es`. -/
def after (es : List Event) : ConsentScreen := run step new es

/-- The controls after one more event. -/
theorem after_concat (es : List Event) (e : Event) : after (es ++ [e]) = (after es).step e :=
  run_append step new es [e]

/-- Since the last reset a request came. -/
def Opened (es : List Event) : Prop := Since (fun _ e => e = .consentRequest) Event.Resets es

/-- Since the last reset a request came, and since this request no decision. -/
def Asked (es : List Event) : Prop :=
  Since (fun pre e => e = .consentRequest ∧ ¬ Opened pre) (fun e => e.Resets ∨ e.Decides) es

/-- The user decided so while the request was pending, and it was not reset since. -/
def Decided (decision : Event) (es : List Event) : Prop :=
  Since (fun pre e => e = decision ∧ Asked pre) Event.Resets es

/-- What one event does to each state. -/
theorem step_state (screen : ConsentScreen) (e : Event) :
    ((screen.step e).state ≠ .idle ↔
        e = .consentRequest ∨ screen.state ≠ .idle ∧ ¬ e.Resets) ∧
      ((screen.step e).state = .pendingRequest ↔
        (e = .consentRequest ∧ screen.state = .idle) ∨
          screen.state = .pendingRequest ∧ ¬ (e.Resets ∨ e.Decides)) ∧
      (∀ choice, (screen.step e).state = .granted choice ↔
        (e = .grant choice ∧ screen.state = .pendingRequest) ∨
          screen.state = .granted choice ∧ ¬ e.Resets) ∧
      ((screen.step e).state = .denied ↔
        (e = .deny ∧ screen.state = .pendingRequest) ∨ screen.state = .denied ∧ ¬ e.Resets) := by
  obtain ⟨state⟩ := screen
  cases e with
  | consentRequest | deny | reset | sessionEnded =>
    cases state <;> simp [step, onConsentRequest, deny, reset, onSessionEnded, Event.Resets,
      Event.Decides]
  | grant choice =>
    cases state <;> simp [step, grant, Event.Resets, Event.Decides]

/-- The screen is open exactly when a request came. -/
theorem opened_iff (es : List Event) : (after es).state ≠ .idle ↔ Opened es := by
  let flag : List Event → Prop := fun es => (after es).state ≠ .idle
  have hnil : ¬ flag [] := fun h => h rfl
  have hconcat : ∀ es e, flag (es ++ [e]) ↔ e = .consentRequest ∨ flag es ∧ ¬ e.Resets := by
    intro es e
    show (after (es ++ [e])).state ≠ .idle ↔ _
    rw [after_concat]
    exact (step_state (after es) e).1
  exact iff_since_of_concat hnil hconcat es

/-- It waits for a decision exactly when it was asked for one. -/
theorem asked_iff (es : List Event) : (after es).state = .pendingRequest ↔ Asked es := by
  let flag : List Event → Prop := fun es => (after es).state = .pendingRequest
  have hnil : ¬ flag [] := fun h => (by cases h)
  have hconcat : ∀ es e, flag (es ++ [e]) ↔
      (e = .consentRequest ∧ ¬ Opened es) ∨ flag es ∧ ¬ (e.Resets ∨ e.Decides) := by
    intro es e
    show (after (es ++ [e])).state = .pendingRequest ↔ _
    rw [after_concat, ← opened_iff, not_not]
    exact (step_state (after es) e).2.1
  exact iff_since_of_concat hnil hconcat es

/-- A state that only a decision on a pending request leads to, and only a reset out of. -/
theorem iff_decided {state : ConsentScreenState} {decision : Event} (hnew : new.state ≠ state)
    (hstep : ∀ screen e, (step screen e).state = state ↔
      (e = decision ∧ screen.state = .pendingRequest) ∨ screen.state = state ∧ ¬ e.Resets)
    (es : List Event) : (after es).state = state ↔ Decided decision es := by
  let flag : List Event → Prop := fun es => (after es).state = state
  have hconcat : ∀ es e, flag (es ++ [e]) ↔
      (e = decision ∧ Asked es) ∨ flag es ∧ ¬ e.Resets := by
    intro es e
    show (after (es ++ [e])).state = state ↔ _
    rw [after_concat, ← asked_iff]
    exact hstep (after es) e
  exact iff_since_of_concat (show ¬ flag [] from hnew) hconcat es

/-- After any events in any order the daemon finds a choice exactly when the user made it while a
request was pending and nothing reset the screen since; a request is pending when it came on a
screen that was not open, and the user has not decided and nothing reset the screen since. -/
theorem pendingGrant_iff (es : List Event) (choice : GrantChoice) :
    ((after es).pendingGrant = some choice ↔ Decided (.grant choice) es) ∧
      ((after es).state = .pendingRequest ↔ Asked es) ∧
      ((after es).state = .denied ↔ Decided .deny es) ∧
      ((after es).state = .idle ↔ ¬ Opened es) := by
  have hgrant : (after es).pendingGrant = some choice ↔ (after es).state = .granted choice := by
    unfold pendingGrant
    cases (after es).state <;> simp
  have hgranted : (after es).state = .granted choice ↔ Decided (.grant choice) es :=
    iff_decided (fun h => (by cases h)) (fun screen e => (step_state screen e).2.2.1 choice) es
  have hdenied : (after es).state = .denied ↔ Decided .deny es :=
    iff_decided (fun h => (by cases h)) (fun screen e => (step_state screen e).2.2.2) es
  exact ⟨hgrant.trans hgranted, asked_iff es, hdenied,
    not_iff_not.mp ((opened_iff es).trans not_not.symm)⟩

end ConsentScreen

/-! ## The controls that sever access -/

/-- The flags of `PanicControl` and of `RevocationControl`. -/
structure SeverControl where
  sessionActive : Bool
  /-- `control_granted`, or `grant_active`. -/
  granted : Bool
  /-- `panic_fired`, or `revoked`. -/
  severed : Bool
  deriving DecidableEq

namespace SeverControl

/-- Without a session. -/
def new : SeverControl := ⟨false, false, false⟩

/-- The session begins or ends. -/
def setSessionActive (control : SeverControl) (active : Bool) : SeverControl :=
  if active then { control with sessionActive := true } else ⟨false, false, false⟩

/-- Access is granted, or is not any more. -/
def setGranted (control : SeverControl) (granted : Bool) : SeverControl :=
  { control with granted, severed := if granted then false else control.severed }

/-- Access was severed. -/
def onSevered (control : SeverControl) : SeverControl :=
  if control.sessionActive then { control with severed := true } else control

/-- What is shown, in the order of the checks. -/
def stateOf {δ : Type} (noSession severed active notGranted : δ) (control : SeverControl) : δ :=
  if !control.sessionActive then noSession
  else if control.severed then severed
  else if control.granted then active
  else notGranted

end SeverControl

/-- `PanicControlState`. -/
inductive PanicControlState where
  | noSession
  | controlNotGranted
  | controlActive
  | injectionSevered
  deriving DecidableEq

/-- `PanicControl`. -/
abbrev PanicControl := SeverControl

namespace PanicControl

/-- `new`. -/
def new : PanicControl := SeverControl.new

/-- `set_session_active`. -/
def setSessionActive : PanicControl → Bool → PanicControl := SeverControl.setSessionActive

/-- `set_control_granted`. -/
def setControlGranted : PanicControl → Bool → PanicControl := SeverControl.setGranted

/-- `on_panic_fired`. -/
def onPanicFired : PanicControl → PanicControl := SeverControl.onSevered

/-- `state`. -/
def state : PanicControl → PanicControlState :=
  SeverControl.stateOf .noSession .injectionSevered .controlActive .controlNotGranted

end PanicControl

/-- `RevocationControlState`. -/
inductive RevocationControlState where
  | noSession
  | noGrant
  | grantActive
  | accessRevoked
  deriving DecidableEq

/-- `RevocationControl`. -/
abbrev RevocationControl := SeverControl

namespace RevocationControl

/-- `new`. -/
def new : RevocationControl := SeverControl.new

/-- `set_session_active`. -/
def setSessionActive : RevocationControl → Bool → RevocationControl :=
  SeverControl.setSessionActive

/-- `set_grant_active`. -/
def setGrantActive : RevocationControl → Bool → RevocationControl := SeverControl.setGranted

/-- `on_access_revoked`. -/
def onAccessRevoked : RevocationControl → RevocationControl := SeverControl.onSevered

/-- `state`. -/
def state : RevocationControl → RevocationControlState :=
  SeverControl.stateOf .noSession .accessRevoked .grantActive .noGrant

end RevocationControl

namespace SeverControl

/-- What the daemon reports. -/
inductive Event where
  | session (active : Bool)
  | grant (granted : Bool)
  | severed
  deriving DecidableEq

/-- One report. -/
def step (control : SeverControl) : Event → SeverControl
  | .session active => control.setSessionActive active
  | .grant granted => control.setGranted granted
  | .severed => control.onSevered

/-- The control after the reports of `es`. -/
def after (es : List Event) : SeverControl := run step new es

/-- The controls after one more event. -/
theorem after_concat (es : List Event) (e : Event) : after (es ++ [e]) = (after es).step e :=
  run_append step new es [e]

/-- A session began and has not ended. -/
def InSession (es : List Event) : Prop :=
  Since (fun _ e => e = .session true) (fun e => e = .session false) es

/-- Access was granted, perhaps before the session, and this has not ended. -/
def Granted (es : List Event) : Prop :=
  Since (fun _ e => e = .grant true) (fun e => e = .grant false ∨ e = .session false) es

/-- Access was severed in the session, and has not been granted since. -/
def Severed (es : List Event) : Prop :=
  Since (fun pre e => e = .severed ∧ InSession pre)
    (fun e => e = .grant true ∨ e = .session false) es

/-- What one report does to each flag. -/
theorem step_flags (control : SeverControl) (e : Event) :
    ((control.step e).sessionActive = true ↔
        e = .session true ∨ control.sessionActive = true ∧ e ≠ .session false) ∧
      ((control.step e).granted = true ↔ e = .grant true ∨
        control.granted = true ∧ ¬ (e = .grant false ∨ e = .session false)) ∧
      ((control.step e).severed = true ↔
        (e = .severed ∧ control.sessionActive = true) ∨
          control.severed = true ∧ ¬ (e = .grant true ∨ e = .session false)) := by
  obtain ⟨sessionActive, granted, severed⟩ := control
  cases e with
  | session active => cases active <;> simp [step, setSessionActive]
  | grant granted' => cases granted' <;> simp [step, setGranted]
  | severed => cases sessionActive <;> simp [step, onSevered]

/-- Each flag says of the history what its name says. -/
theorem flags_iff (es : List Event) :
    ((after es).sessionActive = true ↔ InSession es) ∧
      ((after es).granted = true ↔ Granted es) ∧ ((after es).severed = true ↔ Severed es) := by
  -- Each flag is set by one kind of event and cleared by others.
  have hsession : ∀ es, (after es).sessionActive = true ↔ InSession es := by
    let flag : List Event → Prop := fun es => (after es).sessionActive = true
    have hconcat : ∀ es e, flag (es ++ [e]) ↔
        e = .session true ∨ flag es ∧ ¬ e = .session false := by
      intro es e
      show (after (es ++ [e])).sessionActive = true ↔ _
      rw [after_concat]
      exact (step_flags (after es) e).1
    exact iff_since_of_concat (show ¬ flag [] from Bool.false_ne_true) hconcat
  refine ⟨hsession es, ?_, ?_⟩
  · let flag : List Event → Prop := fun es => (after es).granted = true
    have hconcat : ∀ es e, flag (es ++ [e]) ↔
        e = .grant true ∨ flag es ∧ ¬ (e = .grant false ∨ e = .session false) := by
      intro es e
      show (after (es ++ [e])).granted = true ↔ _
      rw [after_concat]
      exact (step_flags (after es) e).2.1
    exact iff_since_of_concat (show ¬ flag [] from Bool.false_ne_true) hconcat es
  · let flag : List Event → Prop := fun es => (after es).severed = true
    have hconcat : ∀ es e, flag (es ++ [e]) ↔
        (e = .severed ∧ InSession es) ∨ flag es ∧ ¬ (e = .grant true ∨ e = .session false) := by
      intro es e
      show (after (es ++ [e])).severed = true ↔ _
      rw [after_concat, ← hsession]
      exact (step_flags (after es) e).2.2
    exact iff_since_of_concat (show ¬ flag [] from Bool.false_ne_true) hconcat es

/-- Severed access is not taken up again by anything but a grant. -/
theorem severed_run {control : SeverControl} (h : control.severed = true ∨ control.granted = false)
    {es : List Event} (hes : .grant true ∉ es) :
    (run step control es).severed = true ∨ (run step control es).granted = false := by
  induction es generalizing control with
  | nil => exact h
  | cons e es ih =>
    obtain ⟨he, hes⟩ := not_or.mp (mt List.mem_cons.mpr hes)
    refine ih ?_ hes
    obtain ⟨sessionActive, granted, severed⟩ := control
    cases e with
    | session active => cases active <;> simp_all [step, setSessionActive]
    | grant granted' => cases granted' <;> simp_all [step, setGranted]
    | severed => cases sessionActive <;> simp_all [step, onSevered]

open scoped Classical in
/-- After any reports in any order both controls show what the history says: that there is no
session; or that access was severed in it and not granted since; or that access is granted; or that
it is not. And once access was severed in a session, it is not shown as live before the next
grant, not even in a later session. -/
theorem access_shown (es : List Event) :
    PanicControl.state (after es) =
        (if ¬ InSession es then .noSession else if Severed es then .injectionSevered
          else if Granted es then .controlActive else .controlNotGranted) ∧
      RevocationControl.state (after es) =
        (if ¬ InSession es then .noSession else if Severed es then .accessRevoked
          else if Granted es then .grantActive else .noGrant) ∧
      ∀ pre post, es = pre ++ .severed :: post → InSession pre → .grant true ∉ post →
        PanicControl.state (after es) ≠ .controlActive ∧
          RevocationControl.state (after es) ≠ .grantActive := by
  obtain ⟨hsession, hgranted, hsevered⟩ := flags_iff es
  have hshow : ∀ {δ : Type} (a b c d : δ), stateOf a b c d (after es) =
      if ¬ InSession es then a else if Severed es then b else if Granted es then c else d := by
    intro δ a b c d
    unfold stateOf
    simp only [← hsession, ← hgranted, ← hsevered, Bool.not_eq_true, Bool.not_eq_eq_eq_not,
      Bool.not_true]
  refine ⟨hshow _ _ _ _, hshow _ _ _ _, ?_⟩
  rintro pre post rfl hin hpost
  have hsplit : after (pre ++ .severed :: post) = run step ((after pre).step .severed) post :=
    run_append step new pre (.severed :: post)
  have hstart : ((after pre).step .severed).severed = true :=
    (step_flags (after pre) .severed).2.2.mpr (Or.inl ⟨rfl, (flags_iff pre).1.mpr hin⟩)
  have hgone := severed_run (Or.inl hstart) hpost
  rw [← hsplit] at hgone
  -- Neither control shows access as live with these flags.
  have hnever : ∀ {δ : Type} {a b c d : δ}, a ≠ c → b ≠ c → d ≠ c →
      stateOf a b c d (after (pre ++ .severed :: post)) ≠ c := by
    intro δ a b c d ha hb hd
    unfold stateOf
    split_ifs with hno hsev hgr
    · exact ha
    · exact hb
    · exact absurd hgone (by simp [hsev, hgr])
    · exact hd
  exact ⟨hnever (by simp) (by simp) (by simp), hnever (by simp) (by simp) (by simp)⟩

end SeverControl

end LowBand.Shells
