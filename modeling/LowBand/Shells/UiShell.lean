import LowBand.Lib.Run
import Mathlib.Tactic.IntervalCases

/-!
# The watchdog of the UI shell

`ui_shell.rs`: the shell runs in a process of its own, and a thread of the daemon starts it again
when it exits, after a delay that grows with each exit. The thread and the daemon, which may call
`stop` at any moment, are the events of one machine; what the operating system answers to the thread
comes with the event. The next delay is computed as the source does, with the product in `f64` and
the saturating cast, and the count of exits wraps at 32 bits, as in a release build.

`Consistent` holds in every state of a run (`consistent_run`): there is never more than one shell,
the delays are those of the policy in order, and the flags say how the thread ended. A thread that
has returned does nothing (`emitted_of_ended`), and a call of `stop` lets at most one more shell
start (`launches_after_stop`).
-/

namespace LowBand.Shells

open Lib
open scoped List

/-! ## The source -/

/-- `RestartPolicy`. -/
structure RestartPolicy where
  /-- The delay before the first restart. -/
  initialDelayMs : UInt64
  /-- What the delay is multiplied by after each exit. -/
  backoffFactor : Float
  /-- The most that the delay grows to. -/
  maxDelayMs : UInt64
  /-- The exits after which the thread gives up. -/
  maxCrashes : Option UInt32

namespace RestartPolicy

/-- `RestartPolicy::default`. -/
def default : RestartPolicy := ⟨250, 2.0, 10000, none⟩

/-- The next delay: `((delay_ms as f64 * backoff_factor) as u64).min(max_delay_ms)`. The cast cuts
off the fraction, takes a negative number and a NaN to zero, and stays within 64 bits. -/
def backOff (policy : RestartPolicy) (delayMs : UInt64) : UInt64 :=
  min (delayMs.toFloat * policy.backoffFactor).toUInt64 policy.maxDelayMs

/-- The delay before the restart with so many before it. -/
def delayAt (policy : RestartPolicy) (k : ℕ) : UInt64 := policy.backOff^[k] policy.initialDelayMs

end RestartPolicy

/-- What `try_wait` says of the shell. -/
inductive TryWait where
  /-- It has exited. -/
  | exited
  /-- It is running. -/
  | running
  /-- The call fails. -/
  | error
  deriving DecidableEq

/-- Where the thread is. -/
inductive WatchdogPhase where
  /-- It looks after the shell. -/
  | polling
  /-- It waits before a restart. -/
  | sleeping
  /-- It has seen no `stop` after the wait. -/
  | launching
  /-- It has returned. -/
  | ended
  deriving DecidableEq

/-- `UiShellWatchdog` and its thread. -/
structure UiShellWatchdog where
  /-- The exits so far. -/
  crashCount : UInt32
  /-- The thread has not given up. -/
  supervising : Bool
  /-- The daemon has called `stop`. -/
  stopped : Bool
  /-- The delay before the next restart. -/
  delayMs : UInt64
  /-- Where the thread is. -/
  phase : WatchdogPhase
  deriving DecidableEq

/-- What happens next. -/
inductive WatchdogEvent where
  /-- The daemon calls `stop`. -/
  | stop
  /-- The thread goes on: what `try_wait` and `launch_child` say if it calls them. -/
  | turn (child : TryWait) (launches : Bool)
  deriving DecidableEq

/-- What the thread does. -/
inductive WatchdogOutput where
  /-- It has seen that the shell exited. -/
  | exit
  /-- It sleeps for so many milliseconds. -/
  | sleep (ms : UInt64)
  /-- It has started the shell. -/
  | launch
  deriving DecidableEq

namespace UiShellWatchdog

/-- `spawn`, when the first shell could be started. -/
def spawn (policy : RestartPolicy) : UiShellWatchdog :=
  ⟨0, true, false, policy.initialDelayMs, .polling⟩

/-- The thread has given up. -/
def giveUp (w : UiShellWatchdog) : UiShellWatchdog :=
  { w with supervising := false, phase := .ended }

/-- `run_watchdog` and `stop`, step by step. -/
def step (policy : RestartPolicy) : Machine UiShellWatchdog WatchdogEvent WatchdogOutput
  | w, .stop => ([], { w with stopped := true })
  | w, .turn child launches =>
    match w.phase with
    | .polling =>
      if w.stopped then ([], { w with phase := .ended })
      else match child with
        | .exited =>
          let crashes := w.crashCount + 1
          if ∃ most ∈ policy.maxCrashes, most ≤ crashes then
            ([.exit], giveUp { w with crashCount := crashes })
          else
            ([.exit, .sleep w.delayMs], { w with
              crashCount := crashes
              delayMs := policy.backOff w.delayMs
              phase := .sleeping })
        | .running => ([], w)
        | .error => ([], w.giveUp)
    | .sleeping =>
      ([], { w with phase := if w.stopped then .ended else .launching })
    | .launching => if launches then ([.launch], { w with phase := .polling }) else ([], w.giveUp)
    | .ended => ([], w)

/-! ## The shells of a run -/

/-- The delays that the thread slept for, in order. -/
def sleeps (outs : List WatchdogOutput) : List UInt64 :=
  outs.filterMap fun
    | .sleep ms => some ms
    | _ => none

/-- The sleeps of two rows of outputs follow each other. -/
theorem sleeps_append (outs outs' : List WatchdogOutput) :
    sleeps (outs ++ outs') = sleeps outs ++ sleeps outs' :=
  List.filterMap_append

/-- What is true after any run that gave these outputs. -/
structure Consistent (policy : RestartPolicy) (outs : List WatchdogOutput) (w : UiShellWatchdog) :
    Prop where
  /-- Exits are counted. -/
  crashes : w.crashCount = .ofNat (outs.count .exit)
  /-- The delays are those of the policy, from the first on. -/
  schedule : sleeps outs = (List.range (sleeps outs).length).map policy.delayAt
  /-- The next one is at hand. -/
  delay : w.delayMs = policy.delayAt (sleeps outs).length
  /-- While a shell is looked after, each exit was followed by a wait and a restart. -/
  polling : w.phase = .polling →
    (sleeps outs).length = outs.count .exit ∧ outs.count .launch = outs.count .exit
  /-- Before a restart there is no shell. -/
  between : w.phase = .sleeping ∨ w.phase = .launching →
    (sleeps outs).length = outs.count .exit ∧ outs.count .launch + 1 = outs.count .exit
  /-- At the end the last exit may have been left at that. -/
  ended : outs.count .launch ≤ (sleeps outs).length ∧
    (sleeps outs).length ≤ outs.count .exit ∧ outs.count .exit ≤ outs.count .launch + 1
  /-- The thread gives up at the limit. -/
  limit : ∀ most ∈ policy.maxCrashes, outs.count .exit ≤ max 1 most.toNat ∧
    (w.supervising = true → outs.count .exit = 0 ∨ outs.count .exit < most.toNat)
  /-- The thread ends by giving up or by `stop`. -/
  flags : (w.supervising = false → w.phase = .ended) ∧
    (w.phase = .ended → w.supervising = false ∨ w.stopped = true)

variable {policy : RestartPolicy}

/-- A new watchdog is consistent. -/
theorem consistent_spawn : Consistent policy [] (spawn policy) where
  crashes := rfl
  schedule := rfl
  delay := rfl
  polling _ := ⟨rfl, rfl⟩
  between h := by rcases h with h | h <;> cases h
  ended := ⟨Nat.le_refl _, Nat.le_refl _, Nat.zero_le _⟩
  limit _ _ := ⟨Nat.zero_le _, fun _ => Or.inl rfl⟩
  flags := ⟨fun h => (by cases h), fun h => (by cases h)⟩

section Step

variable {outs : List WatchdogOutput} {crashes : UInt32} {delay : UInt64}
  {supervising stopped : Bool} {phase : WatchdogPhase}

/-- Until it has returned, the thread has not given up. -/
theorem Consistent.supervising_eq
    (h : Consistent policy outs ⟨crashes, supervising, stopped, delay, phase⟩)
    (hphase : phase ≠ .ended) : supervising = true := by
  cases supervising with
  | true => rfl
  | false => exact absurd (h.flags.1 rfl) hphase

/-- The thread ends without doing anything else, and may give up. -/
theorem Consistent.end (h : Consistent policy outs ⟨crashes, supervising, stopped, delay, phase⟩)
    {supervising' : Bool} (hend : supervising' = false ∨ stopped = true)
    (hkeep : supervising' = true → supervising = true) :
    Consistent policy (outs ++ []) ⟨crashes, supervising', stopped, delay, .ended⟩ := by
  rw [List.append_nil]
  exact {
    crashes := h.crashes
    schedule := h.schedule
    delay := h.delay
    polling hp := by cases hp
    between hp := by rcases hp with hp | hp <;> cases hp
    ended := h.ended
    limit most hmost := ⟨(h.limit most hmost).1, fun hp => (h.limit most hmost).2 (hkeep hp)⟩
    flags := ⟨fun _ => rfl, fun _ => hend⟩ }

/-- The shell has exited, and the thread gives up: the limit is reached. -/
theorem Consistent.lastExit
    (h : Consistent policy outs ⟨crashes, supervising, stopped, delay, .polling⟩) :
    Consistent policy (outs ++ [.exit]) ⟨crashes + 1, false, stopped, delay, .ended⟩ := by
  obtain ⟨hwaits, hrestarts⟩ := h.polling rfl
  -- The last exit is counted, and no wait follows it.
  have hsleeps : sleeps (outs ++ [.exit]) = sleeps outs := by
    rw [sleeps_append]
    exact List.append_nil _
  have hexits : (outs ++ [WatchdogOutput.exit]).count .exit = outs.count .exit + 1 := by simp
  have hlaunches : (outs ++ [WatchdogOutput.exit]).count .launch = outs.count .launch := by simp
  exact {
    crashes := by rw [hexits, UInt32.ofNat_add, ← h.crashes]; rfl
    schedule := by rw [hsleeps]; exact h.schedule
    delay := by rw [hsleeps]; exact h.delay
    polling hp := by cases hp
    between hp := by rcases hp with hp | hp <;> cases hp
    ended := by
      rw [hsleeps, hexits, hlaunches]
      omega
    limit most hmost := by
      have hopen := (h.limit most hmost).2 (h.supervising_eq (by simp))
      rw [hexits]
      exact ⟨by omega, fun hp => by cases hp⟩
    flags := ⟨fun _ => rfl, fun _ => Or.inl rfl⟩ }

/-- The shell has exited, and the thread waits before it starts it again. -/
theorem Consistent.exit
    (h : Consistent policy outs ⟨crashes, supervising, stopped, delay, .polling⟩)
    (hmost : ¬ ∃ most ∈ policy.maxCrashes, most ≤ crashes + 1) :
    Consistent policy (outs ++ [.exit, .sleep delay])
      ⟨crashes + 1, supervising, stopped, policy.backOff delay, .sleeping⟩ := by
  obtain ⟨hwaits, hrestarts⟩ := h.polling rfl
  have hsleeps : sleeps (outs ++ [.exit, .sleep delay]) = sleeps outs ++ [delay] :=
    sleeps_append _ _
  have hexits : (outs ++ [WatchdogOutput.exit, .sleep delay]).count .exit =
      outs.count .exit + 1 := by simp
  have hlaunches : (outs ++ [WatchdogOutput.exit, .sleep delay]).count .launch =
      outs.count .launch := by simp
  have hlen : (sleeps outs ++ [delay]).length = (sleeps outs).length + 1 := by simp
  have hdelay : delay = policy.delayAt (sleeps outs).length := h.delay
  exact {
    crashes := by rw [hexits, UInt32.ofNat_add, ← h.crashes]; rfl
    schedule := by
      rw [hsleeps, hlen, List.range_succ, List.map_append, ← h.schedule, hdelay]
      rfl
    delay := by
      rw [hsleeps, hlen]
      show policy.backOff delay = _
      rw [hdelay]
      exact (Function.iterate_succ_apply' _ _ _).symm
    polling hp := by cases hp
    between _ := by
      rw [hsleeps, hlen, hexits, hlaunches]
      omega
    ended := by
      rw [hsleeps, hlen, hexits, hlaunches]
      omega
    limit most hmem := by
      have hless : ¬ most ≤ crashes + 1 := fun hle => hmost ⟨most, hmem, hle⟩
      have hopen := (h.limit most hmem).2 (h.supervising_eq (by simp))
      -- Below a limit the count does not wrap.
      have hlt := most.toNat_lt
      have hcrashes : (crashes + 1).toNat = outs.count .exit + 1 := by
        have hcount : crashes = .ofNat (outs.count .exit) := h.crashes
        rw [hcount, UInt32.toNat_add, UInt32.toNat_ofNat', UInt32.toNat_one]
        omega
      rw [UInt32.le_iff_toNat_le, hcrashes] at hless
      rw [hexits]
      exact ⟨by omega, fun _ => Or.inr (by omega)⟩
    flags := ⟨fun hp => absurd (h.flags.1 hp) (by simp), fun hp => by cases hp⟩ }

/-- The shell is started again. -/
theorem Consistent.launch
    (h : Consistent policy outs ⟨crashes, supervising, stopped, delay, .launching⟩) :
    Consistent policy (outs ++ [.launch]) ⟨crashes, supervising, stopped, delay, .polling⟩ := by
  obtain ⟨hwaits, hrestarts⟩ := h.between (Or.inr rfl)
  -- A launch adds to the launches only.
  have hsleeps : sleeps (outs ++ [.launch]) = sleeps outs := by
    rw [sleeps_append]
    exact List.append_nil _
  have hexits : (outs ++ [WatchdogOutput.launch]).count .exit = outs.count .exit := by simp
  have hlaunches : (outs ++ [WatchdogOutput.launch]).count .launch = outs.count .launch + 1 := by
    simp
  exact {
    crashes := by rw [hexits, ← h.crashes]
    schedule := by rw [hsleeps]; exact h.schedule
    delay := by rw [hsleeps]; exact h.delay
    polling _ := by
      rw [hsleeps, hexits, hlaunches]
      exact ⟨hwaits, hrestarts⟩
    between hp := by rcases hp with hp | hp <;> cases hp
    ended := by
      rw [hsleeps, hexits, hlaunches]
      omega
    limit most hmem := by
      rw [hexits]
      exact h.limit most hmem
    flags := ⟨fun hp => absurd (h.flags.1 hp) (by simp), fun hp => by cases hp⟩ }

/-- The thread goes on after the wait. -/
theorem Consistent.wake
    (h : Consistent policy outs ⟨crashes, supervising, stopped, delay, .sleeping⟩) :
    Consistent policy (outs ++ []) ⟨crashes, supervising, stopped, delay, .launching⟩ := by
  rw [List.append_nil]
  exact { h with
    polling := fun hp => (by cases hp)
    between := fun _ => h.between (Or.inl rfl)
    flags := ⟨fun hp => absurd (h.flags.1 hp) (by simp), fun hp => (by cases hp)⟩ }

end Step

/-- What is true of a run stays true with one more step. -/
theorem Consistent.step {outs : List WatchdogOutput} {w : UiShellWatchdog}
    (h : Consistent policy outs w) (e : WatchdogEvent) :
    Consistent policy (outs ++ (UiShellWatchdog.step policy w e).1)
      (UiShellWatchdog.step policy w e).2 := by
  obtain ⟨crashes, supervising, stopped, delay, phase⟩ := w
  cases e with
  | stop =>
    rw [UiShellWatchdog.step, List.append_nil]
    exact { h with flags := ⟨h.flags.1, fun _ => Or.inr rfl⟩ }
  | turn child launches =>
    have hsame : Consistent policy (outs ++ []) ⟨crashes, supervising, stopped, delay, phase⟩ :=
      (List.append_nil outs).symm ▸ h
    cases phase with
    | polling =>
      cases stopped with
      | true => exact h.end (Or.inr rfl) id
      | false =>
        cases child with
        | exited =>
          -- The exit is the last one allowed, or is followed by a wait.
          by_cases hmost : ∃ most ∈ policy.maxCrashes, most ≤ crashes + 1
          · have hstep : UiShellWatchdog.step policy ⟨crashes, supervising, false, delay, .polling⟩
                (.turn .exited launches) =
                ([.exit], ⟨crashes + 1, false, false, delay, .ended⟩) := if_pos hmost
            rw [hstep]
            exact h.lastExit
          · have hstep : UiShellWatchdog.step policy ⟨crashes, supervising, false, delay, .polling⟩
                (.turn .exited launches) = ([.exit, .sleep delay],
                ⟨crashes + 1, supervising, false, policy.backOff delay, .sleeping⟩) :=
              if_neg hmost
            rw [hstep]
            exact h.exit hmost
        | running => exact hsame
        | error => exact h.end (Or.inl rfl) fun hp => by cases hp
    | sleeping =>
      cases stopped with
      | true => exact h.end (Or.inr rfl) id
      | false => exact h.wake
    | launching =>
      cases launches with
      | true => exact h.launch
      | false => exact h.end (Or.inl rfl) fun hp => by cases hp
    | ended => exact hsame

/-- It is true after every run. -/
theorem consistent_run (policy : RestartPolicy) (es : List WatchdogEvent) :
    Consistent policy ((step policy).emitted (spawn policy) es)
      ((step policy).finish (spawn policy) es) := by
  have hall : ∀ outs w, Consistent policy outs w → Consistent policy
      (outs ++ (step policy).emitted w es) ((step policy).finish w es) := by
    induction es with
    | nil =>
      intro outs w h
      exact (List.append_nil outs).symm ▸ h
    | cons e es ih =>
      intro outs w h
      have hrest := ih _ _ (h.step e)
      rw [List.append_assoc] at hrest
      exact hrest
  exact hall [] _ consistent_spawn

/-! ## The end -/

/-- A thread that has returned does nothing more. -/
theorem emitted_of_ended {w : UiShellWatchdog} (hended : w.phase = .ended)
    (es : List WatchdogEvent) : (step policy).emitted w es = [] := by
  induction es generalizing w with
  | nil => rfl
  | cons e es ih =>
    obtain ⟨crashes, supervising, stopped, delay, phase⟩ := w
    obtain rfl : phase = .ended := hended
    cases e with
    | stop => exact ih rfl
    | turn child launches => exact ih rfl

/-- After `stop` the thread starts a shell only if it had looked for it already. -/
theorem launches_after_stop {w : UiShellWatchdog} (hstop : w.stopped = true)
    (es : List WatchdogEvent) :
    (step policy).emitted w es = [] ∨
      w.phase = .launching ∧ (step policy).emitted w es = [.launch] := by
  induction es generalizing w with
  | nil => exact Or.inl rfl
  | cons e es ih =>
    obtain ⟨crashes, supervising, stopped, delay, phase⟩ := w
    obtain rfl : stopped = true := hstop
    cases e with
    | stop => exact @ih ⟨crashes, supervising, true, delay, phase⟩ rfl
    | turn child launches =>
      cases phase with
      | polling | sleeping | ended => exact Or.inl (emitted_of_ended rfl es)
      | launching =>
        cases launches with
        | false => exact Or.inl (emitted_of_ended rfl es)
        | true =>
          -- Back at its watch, the thread sees the call.
          have hwatch : (step policy).emitted
              ⟨crashes, supervising, true, delay, .polling⟩ es = [] := by
            rcases @ih ⟨crashes, supervising, true, delay, .polling⟩ rfl with hnone | ⟨hphase, -⟩
            · exact hnone
            · cases hphase
          exact Or.inr ⟨rfl, congrArg (WatchdogOutput.launch :: ·) hwatch⟩

/-- However the turns of the thread, the answers of the operating system and the calls of the daemon
come: a shell is started again only after one has exited, so there is never more than one; the waits
before the restarts are those of the policy, from the first on; no more exits are counted than the
limit, or one when the limit is 0, and at the limit the thread has given up; one that has given up
does nothing more; and after `stop` at most one shell is started. -/
theorem watchdog_restarts (policy : RestartPolicy) (es : List WatchdogEvent) :
    let w := (step policy).finish (spawn policy) es
    let outs := (step policy).emitted (spawn policy) es
    (w.crashCount = .ofNat (outs.count .exit) ∧ outs.count .launch ≤ (sleeps outs).length ∧
        (sleeps outs).length ≤ outs.count .exit ∧ outs.count .exit ≤ outs.count .launch + 1) ∧
      sleeps outs = (List.range (sleeps outs).length).map policy.delayAt ∧
      (∀ most ∈ policy.maxCrashes, outs.count .exit ≤ max 1 most.toNat ∧
        (outs.count .exit ≠ 0 → most.toNat ≤ outs.count .exit → w.supervising = false)) ∧
      ∀ later,
        (w.supervising = false → (step policy).emitted w later = []) ∧
          (w.stopped = true → (step policy).emitted w later <+: [.launch]) := by
  intro w outs
  have h : Consistent policy outs w := consistent_run policy es
  refine ⟨⟨h.crashes, h.ended⟩, h.schedule, fun most hmost => ?_, fun later => ⟨fun hgone =>
    emitted_of_ended (h.flags.1 hgone) later, fun hstop => ?_⟩⟩
  · obtain ⟨hmax, hopen⟩ := h.limit most hmost
    refine ⟨hmax, fun hsome hfull => Bool.eq_false_iff.mpr fun hsupervising => ?_⟩
    have hbelow := hopen hsupervising
    omega
  -- A stop lets at most the launch that was due through.
  · rcases launches_after_stop hstop later with hnone | ⟨-, hone⟩
    · rw [hnone]
      exact List.nil_prefix
    · exact hone ▸ List.prefix_refl _

/-- The default policy doubles the delay, up to its maximum. -/
theorem backOff_default (k : ℕ) :
    RestartPolicy.default.backOff (.ofNat (min (250 * 2 ^ k) 10000)) =
      .ofNat (min (250 * 2 ^ (k + 1)) 10000) := by
  rcases Nat.lt_or_ge k 6 with hlt | hge
  · interval_cases k <;> decide +kernel
  · -- The maximum is reached, and stays.
    have hpow : 2 ^ 6 ≤ 2 ^ k := Nat.pow_le_pow_right (by decide) hge
    rw [Nat.min_eq_right (by omega), Nat.min_eq_right (by omega)]
    decide +kernel

/-- The waits of the default policy. -/
theorem delayAt_default (k : ℕ) :
    RestartPolicy.default.delayAt k = .ofNat (min (250 * 2 ^ k) 10000) := by
  unfold RestartPolicy.delayAt
  induction k with
  | zero => rfl
  | succ k ih => rw [Function.iterate_succ_apply', ih, backOff_default]

end UiShellWatchdog

end LowBand.Shells
