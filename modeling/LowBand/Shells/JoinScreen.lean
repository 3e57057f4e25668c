import LowBand.Lib.Run
import Mathlib.Tactic.Common

/-!
# The join screen

The assisted user types a code of nine digits into the screen of `join_screen.rs` and presses a
button. The code that `connect` returns goes to the daemon, which reports later that the session
stands or has failed. A run is a list of the operations of the user and the daemon, and next to the
screen it keeps the code that the last successful `connect` returned.

`connect` looks at the state before it changes anything and `set_code` does not, although it is
documented as ignored while the screen is connecting or connected. So the screen shows the code that
it joined with, in all states of a run, exactly when no other code is set there
(`shows_joined_code_iff`). What is stored is a code of nine digits in every run. The time that an
attempt took is not known while the screen is connecting, and known once it is connected
(`timed_run`).
-/

namespace LowBand.Shells

open Lib

/-! ## The screen -/

/-- `CodeError`. -/
inductive CodeError
  /-- The code has another number of characters than nine. -/
  | wrongLength (got : ℕ)
  /-- A character is no decimal digit. -/
  | nonDigit (ch : Char)
  deriving DecidableEq, Repr

/-- `ConnectError`. -/
inductive ConnectError
  | noCodeEntered
  | alreadyConnecting
  | alreadyConnected
  deriving DecidableEq, Repr

/-- `JoinState`. -/
inductive JoinState
  /-- The user has to enter a code. -/
  | idle
  /-- The daemon is at work. -/
  | connecting
  /-- The session stands. -/
  | connected
  /-- The attempt ended with an error. -/
  | failed (reason : String)
  deriving DecidableEq, Repr

/-- `JoinScreen`. Instants are in nanoseconds. -/
structure JoinScreen where
  /-- The code that the user entered. -/
  sessionCode : Option String
  /-- The state. -/
  state : JoinState
  /-- When `connect` was called. -/
  connectStart : Option ℕ
  /-- The milliseconds from `connect` to `on_connected`. -/
  timeToConnectedMs : Option UInt64
  deriving DecidableEq, Repr

namespace JoinScreen

/-- `new`. -/
def new : JoinScreen := ⟨none, .idle, none, none⟩

/-- `set_code`. -/
def setCode (s : JoinScreen) (code : String) : Except CodeError Unit × JoinScreen :=
  let chars := code.toList
  if chars.length ≠ 9 then (.error (.wrongLength chars.length), s)
  else
    match chars.find? fun c => !c.isDigit with
    | some ch => (.error (.nonDigit ch), s)
    | none => (.ok (), { s with sessionCode := some code })

/-- `connect`, at the instant `now`. -/
def connect (s : JoinScreen) (now : ℕ) : Except ConnectError String × JoinScreen :=
  match s.state with
  | .connecting => (.error .alreadyConnecting, s)
  | .connected => (.error .alreadyConnected, s)
  | .idle | .failed _ =>
    match s.sessionCode with
    | none => (.error .noCodeEntered, s)
    | some code =>
      (.ok code,
        { s with
          state := .connecting
          connectStart := some now
          timeToConnectedMs := none })

/-- `on_connected`, at the instant `now`. -/
def onConnected (s : JoinScreen) (now : ℕ) : JoinScreen :=
  let time :=
    match s.connectStart with
    | some start => some (UInt64.ofNat ((now - start) / 1000000))
    | none => s.timeToConnectedMs
  { s with timeToConnectedMs := time, state := .connected }

/-- `on_failed`. -/
def onFailed (s : JoinScreen) (reason : String) : JoinScreen := { s with state := .failed reason }

/-- `reset`. -/
def reset (_ : JoinScreen) : JoinScreen := ⟨none, .idle, none, none⟩

/-- The screen is connecting or connected. -/
def Joining (s : JoinScreen) : Prop := s.state = .connecting ∨ s.state = .connected

end JoinScreen

/-- A code of nine ASCII digits. -/
structure IsSessionCode (code : String) : Prop where
  length : code.toList.length = 9
  digits : ∀ c ∈ code.toList, c.isDigit = true

/-- The operations on a screen. -/
inductive JoinOp
  | setCode (code : String)
  | connect (now : ℕ)
  | onConnected (now : ℕ)
  | onFailed (reason : String)
  | reset

/-- A screen in a run. -/
structure JoinRun where
  /-- The screen. -/
  screen : JoinScreen
  /-- The code that the last successful `connect` returned. -/
  returned : Option String

namespace JoinRun

/-- A new screen. -/
def new : JoinRun := ⟨.new, none⟩

/-- One operation. -/
def step (r : JoinRun) : JoinOp → JoinRun
  | .setCode code => { r with screen := (r.screen.setCode code).2 }
  | .connect now =>
    match r.screen.connect now with
    | (.ok code, screen) => ⟨screen, some code⟩
    | (.error _, screen) => { r with screen }
  | .onConnected now => { r with screen := r.screen.onConnected now }
  | .onFailed reason => { r with screen := r.screen.onFailed reason }
  | .reset => { r with screen := r.screen.reset }

/-- The daemon reports a session only while the screen is connecting. -/
def ReportsInTime (r : JoinRun) : JoinOp → Prop
  | .onConnected _ => r.screen.state = .connecting
  | _ => True

/-- While it is connecting or connected, the screen has the code that `connect` returned. -/
def ShowsJoinedCode (r : JoinRun) : Prop :=
  r.screen.Joining → ∃ code, r.returned = some code ∧ r.screen.sessionCode = some code

/-- No code but the stored one is set while the screen is connecting or connected. -/
def KeepsCode (r : JoinRun) : JoinOp → Prop
  | .setCode code => r.screen.Joining → IsSessionCode code → r.screen.sessionCode = some code
  | _ => True

end JoinRun

/-! ## What the operations do -/

namespace JoinScreen

/-- A code of nine digits is stored, whatever the state is. -/
theorem setCode_of_isSessionCode {code : String} (h : IsSessionCode code) (s : JoinScreen) :
    s.setCode code = (.ok (), { s with sessionCode := some code }) := by
  have hfind : code.toList.find? (fun c => !c.isDigit) = none :=
    List.find?_eq_none.mpr fun c hc => by simp [h.digits c hc]
  rw [setCode]
  simp only [h.length, ne_eq, not_true_eq_false, if_false, hfind]

/-- Other input is refused with the reason, and changes nothing. -/
theorem setCode_of_not_isSessionCode {code : String} (h : ¬ IsSessionCode code) (s : JoinScreen) :
    s.setCode code = (.error (.wrongLength code.toList.length), s) ∨
      ∃ ch ∈ code.toList, ch.isDigit = false ∧ s.setCode code = (.error (.nonDigit ch), s) := by
  by_cases hlen : code.toList.length = 9
  · refine Or.inr ?_
    cases hfind : code.toList.find? fun c => !c.isDigit with
    | none =>
      refine absurd ⟨hlen, fun c hc => ?_⟩ h
      simpa using List.find?_eq_none.mp hfind c hc
    | some ch =>
      have hbad := List.find?_some hfind
      rw [Bool.not_eq_true'] at hbad
      refine ⟨ch, List.mem_of_find?_eq_some hfind, hbad, ?_⟩
      rw [setCode]
      simp only [hlen, ne_eq, not_true_eq_false, if_false, hfind]
  · exact Or.inl (if_pos hlen)

/-- `connect` returns the stored code and is connecting then, or changes nothing. -/
theorem connect_cases (s : JoinScreen) (now : ℕ) :
    (∃ code, s.sessionCode = some code ∧ ¬ s.Joining ∧
      s.connect now = (.ok code,
        { s with state := .connecting, connectStart := some now, timeToConnectedMs := none })) ∨
    ∃ e, s.connect now = (.error e, s) := by
  unfold connect Joining
  cases s.state with
  | connecting => exact Or.inr ⟨_, rfl⟩
  | connected => exact Or.inr ⟨_, rfl⟩
  | idle | failed reason =>
    cases s.sessionCode with
    | none => exact Or.inr ⟨_, rfl⟩
    | some code => exact Or.inl ⟨code, rfl, nofun, rfl⟩

end JoinScreen

namespace JoinRun

variable {r : JoinRun}

/-- A session code is stored. -/
theorem step_setCode {code : String} (h : IsSessionCode code) :
    r.step (.setCode code) = { r with screen := { r.screen with sessionCode := some code } } := by
  rw [step, JoinScreen.setCode_of_isSessionCode h]

/-- Another text is not. -/
theorem step_setCode_refused {code : String} (h : ¬ IsSessionCode code) :
    r.step (.setCode code) = r := by
  rcases JoinScreen.setCode_of_not_isSessionCode h r.screen with heq | ⟨ch, -, -, heq⟩
  · rw [step, heq]
  · rw [step, heq]

/-- The screen connects with its code, or nothing changes. -/
theorem step_connect_cases (r : JoinRun) (now : ℕ) :
    (∃ code, r.screen.sessionCode = some code ∧ r.step (.connect now) =
      ⟨⟨r.screen.sessionCode, .connecting, some now, none⟩, some code⟩) ∨
    r.step (.connect now) = r := by
  rcases r.screen.connect_cases now with ⟨code, hcode, -, heq⟩ | ⟨e, heq⟩
  · exact Or.inl ⟨code, hcode, by simp only [step, heq]⟩
  · exact Or.inr (by simp only [step, heq])

/-- A screen that is connecting or connected keeps showing the code that it joined with exactly when
no other code is set. -/
theorem showsJoinedCode_step_iff {op : JoinOp} (h : r.ShowsJoinedCode)
    (htime : r.ReportsInTime op) : (r.step op).ShowsJoinedCode ↔ r.KeepsCode op := by
  cases op with
  | setCode code =>
    by_cases hvalid : IsSessionCode code
    · rw [step_setCode hvalid]
      constructor
      · intro hshows hjoining _
        obtain ⟨joined, hreturned, hset⟩ := hshows hjoining
        obtain ⟨joined', hreturned', hstored⟩ := h hjoining
        -- the code set is the one returned, and so is the stored one
        rw [hstored, ← hreturned', hreturned]
        exact hset.symm
      · intro hkeeps hjoining
        obtain ⟨joined, hreturned, hstored⟩ := h hjoining
        exact ⟨joined, hreturned, (hkeeps hjoining hvalid).symm.trans hstored⟩
    · rw [step_setCode_refused hvalid]
      exact iff_of_true h fun _ hcode => absurd hcode hvalid
  | connect now =>
    refine iff_of_true ?_ trivial
    rcases r.step_connect_cases now with ⟨code, hcode, heq⟩ | heq
    · rw [heq]
      exact fun _ => ⟨code, rfl, hcode⟩
    · rw [heq]
      exact h
  | onConnected now => exact iff_of_true (fun _ => h (Or.inl htime)) trivial
  | onFailed reason =>
    refine iff_of_true (fun hjoining => ?_) trivial
    rcases hjoining with hstate | hstate
    · cases hstate
    · cases hstate
  | reset =>
    refine iff_of_true (fun hjoining => ?_) trivial
    rcases hjoining with hstate | hstate
    · cases hstate
    · cases hstate

/-- What is stored is a code of nine digits. -/
def StoresValidCode (r : JoinRun) : Prop :=
  ∀ code, r.screen.sessionCode = some code → IsSessionCode code

/-- No operation stores anything else. -/
theorem storesValidCode_step (op : JoinOp) (h : r.StoresValidCode) :
    (r.step op).StoresValidCode := by
  cases op with
  | setCode code =>
    by_cases hvalid : IsSessionCode code
    · rw [step_setCode hvalid]
      exact fun stored hstored => Option.some.inj hstored ▸ hvalid
    · rw [step_setCode_refused hvalid]
      exact h
  | connect now =>
    rcases r.step_connect_cases now with ⟨code, -, heq⟩ | heq
    · rw [heq]
      exact h
    · rw [heq]
      exact h
  | onConnected now => exact h
  | onFailed reason => exact h
  | reset => nofun

/-- The times go with the state: while the screen is connecting an attempt has begun, and how long
it took is known once the screen is connected and not before. -/
structure Timed (r : JoinRun) : Prop where
  idle : r.screen.state = .idle →
    r.screen.connectStart = none ∧ r.screen.timeToConnectedMs = none
  connecting : r.screen.state = .connecting →
    (∃ start, r.screen.connectStart = some start) ∧ r.screen.timeToConnectedMs = none
  connected : r.screen.state = .connected → ∃ ms, r.screen.timeToConnectedMs = some ms

/-- A step with reports in time keeps the times with the state. -/
theorem timed_step {op : JoinOp} (h : r.Timed) (htime : r.ReportsInTime op) :
    (r.step op).Timed := by
  cases op with
  | setCode code =>
    by_cases hvalid : IsSessionCode code
    · rw [step_setCode hvalid]
      exact ⟨h.idle, h.connecting, h.connected⟩
    · rw [step_setCode_refused hvalid]
      exact h
  | connect now =>
    rcases r.step_connect_cases now with ⟨code, -, heq⟩ | heq
    · rw [heq]
      exact ⟨nofun, fun _ => ⟨⟨now, rfl⟩, rfl⟩, nofun⟩
    · rw [heq]
      exact h
  -- The elapsed time is taken from the start that `connect` has kept.
  | onConnected now =>
    obtain ⟨⟨start, hstart⟩, -⟩ := h.connecting htime
    refine ⟨nofun, nofun, fun _ => ⟨UInt64.ofNat ((now - start) / 1000000), ?_⟩⟩
    simp only [step, JoinScreen.onConnected, hstart]
  | onFailed reason => exact ⟨nofun, nofun, nofun⟩
  | reset => exact ⟨fun _ => ⟨rfl, rfl⟩, nofun, nofun⟩

/-- The times go with the state in every run in which the daemon reports in time. -/
theorem timed_run {ops : List JoinOp} (htime : Guarded step ReportsInTime new ops) :
    (run step new ops).Timed :=
  run_invariant (fun _ _ => timed_step) htime ⟨fun _ => ⟨rfl, rfl⟩, nofun, nofun⟩

/-- When the daemon reports in time, the screen shows the code that it joined with in all states of
a run exactly when no other code is set while it is connecting or connected. A stored code has nine
digits in every case. -/
theorem shows_joined_code_iff {ops : List JoinOp} (htime : Guarded step ReportsInTime new ops) :
    ((∀ pre, pre <+: ops → (run step new pre).ShowsJoinedCode) ↔ Guarded step KeepsCode new ops) ∧
      ∀ pre, pre <+: ops → (run step new pre).StoresValidCode := by
  have hnew : new.ShowsJoinedCode := by
    rintro (hstate | hstate)
    · cases hstate
    · cases hstate
  have hempty : new.StoresValidCode := nofun
  constructor
  · exact forall_isPrefix_iff_guarded_of_guarded (fun _ _ => showsJoinedCode_step_iff) htime hnew
  · exact fun pre _ => run_induction (fun _ op => storesValidCode_step op) pre hempty

/-- A run in which the code is set again while the screen is connecting. -/
theorem shows_joined_code_iff_again :
    let ops : List JoinOp :=
      [.setCode "123456789", .connect 0, .setCode "123456789", .onConnected 5000000, .reset]
    ((∀ pre, pre <+: ops → (run step new pre).ShowsJoinedCode) ↔ Guarded step KeepsCode new ops) ∧
      ∀ pre, pre <+: ops → (run step new pre).StoresValidCode :=
  shows_joined_code_iff ⟨trivial, trivial, trivial, rfl, trivial, trivial⟩

/-- Another code that is set while the screen is connecting replaces the one that it joins with. -/
theorem another_code_shown :
    ¬ ∀ ops : List JoinOp, Guarded step ReportsInTime new ops →
      ∀ pre, pre <+: ops → (run step new pre).ShowsJoinedCode := by
  intro hall
  let ops : List JoinOp := [.setCode "111111111", .connect 0, .setCode "222222222"]
  have hlast := hall ops ⟨trivial, trivial, trivial, trivial⟩ ops List.prefix_rfl
  have hscreen : (run step new ops).screen.state = .connecting ∧
      (run step new ops).screen.sessionCode = some "222222222" ∧
      (run step new ops).returned = some "111111111" := by decide
  obtain ⟨hstate, hstored, hreturned⟩ := hscreen
  obtain ⟨code, hcode, hcode'⟩ := hlast (Or.inl hstate)
  rw [hreturned] at hcode
  rw [hstored, ← hcode] at hcode'
  exact absurd hcode' (by decide)

end JoinRun

end LowBand.Shells
