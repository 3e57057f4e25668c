import LowBand.Lib.Run
import Mathlib.Algebra.Order.Group.Nat
import Mathlib.Data.List.Induction

/-!
# Requests that are sent again

A party sends a request under a key, waits `pause` ticks, sends it again at the tick after them, and
gives up when the request has been out for the last time as long; an answer that the key accepts
ends the matter, and a new start begins it again.

`step` counts down, as programs do. `due` says what comes out from the history alone: the key of the
last start, the ticks since then, and whether an answer was accepted in time. They agree on every
run (`output_eq`), and a request that was started is sent under consecutive numbers, one in each
`pause + 1` ticks (`emitted_start`).
-/

namespace Lib.Retry

variable {κ α : Type*}

/-- How a request is retried. -/
structure Params (κ α : Type*) where
  /-- The ticks between two sendings, less one. -/
  pause : ℕ
  /-- How often the request is sent. -/
  most : ℕ
  /-- It is sent at all. -/
  most_pos : 0 < most
  /-- The answers that a key accepts. -/
  accepts : κ → α → Bool

/-- What happens to a party. -/
inductive Input (κ α : Type*)
  /-- A request is started. -/
  | start (key : κ)
  /-- Time passes. -/
  | tick
  /-- An answer arrives. -/
  | answer (a : α)

/-- What a party does. -/
inductive Output (κ : Type*)
  /-- It sends the request for the `n + 1`st time. -/
  | send (key : κ) (n : ℕ)
  /-- It has its answer. -/
  | answered
  /-- It gives up. -/
  | failed

/-- A party. -/
inductive State (κ : Type*)
  /-- Nothing was started. -/
  | idle
  /-- The request was sent `sent` times, and `left` more ticks pass without another sending. -/
  | waiting (key : κ) (sent left : ℕ)
  /-- There was an answer. -/
  | answered
  /-- There was none. -/
  | failed

variable (P : Params κ α)

/-- One step of a party. -/
def step : Machine (State κ) (Input κ α) (Output κ)
  | _, .start key => ([.send key 0], .waiting key 1 P.pause)
  | .waiting key sent left, .tick =>
    if 0 < left then ([], .waiting key sent (left - 1))
    else if P.most ≤ sent then ([.failed], .failed)
    else ([.send key sent], .waiting key (sent + 1) P.pause)
  | .waiting key sent left, .answer a =>
    if P.accepts key a then ([.answered], .answered) else ([], .waiting key sent left)
  | s, _ => ([], s)

/-! ## What the history says -/

/-- The ticks from one sending to the next. -/
def Params.period : ℕ := P.pause + 1

/-- The ticks until the request is given up. -/
def Params.lifetime : ℕ := P.most * P.period

/-- A period has at least one tick. -/
theorem Params.period_pos : 0 < P.period := Nat.succ_pos _

/-- The last start, and what happened since. -/
def record (h : Option (κ × List (Input κ α))) : Input κ α → Option (κ × List (Input κ α))
  | .start key => some (key, [])
  | e => h.map fun (key, since) => (key, since ++ [e])

/-- The last start of a run, and what happened since. -/
def sinceStart (es : List (Input κ α)) : Option (κ × List (Input κ α)) := run record none es

/-- The ticks in a run. -/
def ticks (es : List (Input κ α)) : ℕ :=
  es.countP fun
    | .tick => true
    | _ => false

/-- An answer that the key accepts, when so many ticks have passed. -/
def acceptsAt (key : κ) (t : ℕ) : Input κ α → Bool
  | .answer a => P.accepts key a && decide (t < P.lifetime)
  | _ => false

/-- An answer was accepted before the request was given up; `t` ticks had passed before. -/
def inTime (key : κ) : ℕ → List (Input κ α) → Bool
  | _, [] => false
  | t, e :: es => acceptsAt P key t e || inTime key (t + ticks [e]) es

/-- The ticks of two runs add up. -/
theorem ticks_append (es fs : List (Input κ α)) : ticks (es ++ fs) = ticks es + ticks fs :=
  List.countP_append

/-- One more input may be the one that is accepted in time. -/
theorem inTime_concat (key : κ) (t : ℕ) (es : List (Input κ α)) (e : Input κ α) :
    inTime P key t (es ++ [e]) = (inTime P key t es || acceptsAt P key (t + ticks es) e) := by
  induction es generalizing t with
  | nil => simp [inTime, ticks]
  | cons f es ih =>
    rw [List.cons_append, inTime, inTime, ih, Bool.or_assoc, Nat.add_assoc, ← ticks_append,
      List.singleton_append]

/-- What comes out of a step, given the history. -/
def due (h : Option (κ × List (Input κ α))) : Input κ α → List (Output κ)
  | .start key => [.send key 0]
  | .tick =>
    match h with
    | none => []
    | some (key, since) =>
      let t := ticks since + 1
      if inTime P key 0 since ∨ ¬ P.period ∣ t ∨ P.lifetime < t then []
      else if t = P.lifetime then [.failed]
      else [.send key (t / P.period)]
  | .answer a =>
    match h with
    | none => []
    | some (key, since) =>
      if P.accepts key a ∧ inTime P key 0 since = false ∧ ticks since < P.lifetime then [.answered]
      else []

/-- The state that a history leads to. -/
def stateOf : Option (κ × List (Input κ α)) → State κ
  | none => .idle
  | some (key, since) =>
    if inTime P key 0 since then .answered
    else if ticks since < P.lifetime then
      .waiting key (ticks since / P.period + 1) (P.pause - ticks since % P.period)
    else .failed

variable {P}

/-- A tick within a period. -/
theorem div_mod_succ_of_lt {t : ℕ} (h : t % P.period < P.pause) :
    (t + 1) / P.period = t / P.period ∧ (t + 1) % P.period = t % P.period + 1 := by
  rw [Nat.div_mod_unique P.period_pos]
  have ht := Nat.mod_add_div t P.period
  have hperiod : P.period = P.pause + 1 := rfl
  omega

/-- A tick that ends a period. -/
theorem div_mod_succ_of_not_lt {t : ℕ} (h : ¬ t % P.period < P.pause) :
    (t + 1) / P.period = t / P.period + 1 ∧ (t + 1) % P.period = 0 := by
  rw [Nat.div_mod_unique P.period_pos]
  have ht := Nat.mod_add_div t P.period
  have hlt := Nat.mod_lt t P.period_pos
  have hperiod : P.period = P.pause + 1 := rfl
  rw [Nat.mul_succ]
  omega

/-- A tick does what the history says. -/
theorem step_tick (key : κ) (since : List (Input κ α)) :
    step P (stateOf P (some (key, since))) .tick =
      (due P (some (key, since)) .tick, stateOf P (some (key, since ++ [.tick]))) := by
  have hticks : ticks (since ++ [.tick] : List (Input κ α)) = ticks since + 1 := ticks_append _ _
  have hin : inTime P key 0 (since ++ [.tick]) = inTime P key 0 since := by
    rw [inTime_concat]
    exact Bool.or_false _
  simp only [stateOf, due, hticks, hin]
  generalize ticks since = t
  -- After an answer in time a tick does nothing.
  cases inTime P key 0 since with
  | true => simp [step]
  | false =>
    by_cases hlt : t < P.lifetime
    · have hperiod : P.period = P.pause + 1 := rfl
      have hmod := Nat.mod_lt t P.period_pos
      have ht := Nat.mod_add_div (t + 1) P.period
      simp only [Bool.false_eq_true, false_or, if_false, if_pos hlt, step, Nat.dvd_iff_mod_eq_zero]
      by_cases hleft : t % P.period < P.pause
      · -- Within a period nothing is due, and the last tick of the lifetime ends one.
        obtain ⟨hdiv, hrem⟩ := div_mod_succ_of_lt hleft
        have hne : t + 1 ≠ P.lifetime := by
          intro heq
          rw [heq, Params.lifetime, Nat.mul_mod_left] at hrem
          omega
        rw [if_pos (by omega), if_pos (Or.inl (by omega)), if_pos (by omega), hdiv, hrem]
        rw [Nat.sub_sub]
      -- A period ends, and either a request is due or the lifetime is over.
      · obtain ⟨hdiv, hrem⟩ := div_mod_succ_of_not_lt hleft
        rw [hrem, Nat.zero_add] at ht
        have hlast : P.most ≤ t / P.period + 1 ↔ t + 1 = P.lifetime := by
          rw [← hdiv]
          constructor
          · intro hle
            have hmul := Nat.mul_le_mul_left P.period hle
            rw [ht, Nat.mul_comm] at hmul
            have hlife : P.lifetime = P.most * P.period := rfl
            omega
          · intro heq
            rw [heq, Params.lifetime, Nat.mul_div_cancel _ P.period_pos]
        have hlate : ¬ ((t + 1) % P.period ≠ 0 ∨ P.lifetime < t + 1) := by omega
        rw [if_neg (by omega), if_neg hlate, hdiv, hrem]
        by_cases hdone : t + 1 = P.lifetime
        · rw [if_pos (hlast.mpr hdone), if_pos hdone, if_neg (by omega)]
        · rw [if_neg (mt hlast.mp hdone), if_neg hdone, if_pos (by omega), Nat.sub_zero]
    -- The lifetime was over before this tick.
    · have hlate : P.lifetime < t + 1 := by omega
      have hover : ¬ t + 1 < P.lifetime := by omega
      simp [step, hlt, hlate, hover]

/-- An answer does what the history says. -/
theorem step_answer (key : κ) (since : List (Input κ α)) (a : α) :
    step P (stateOf P (some (key, since))) (.answer a) =
      (due P (some (key, since)) (.answer a), stateOf P (some (key, since ++ [.answer a]))) := by
  have hticks : ticks (since ++ [.answer a] : List (Input κ α)) = ticks since := ticks_append _ _
  have hin : inTime P key 0 (since ++ [.answer a]) =
      (inTime P key 0 since || (P.accepts key a && decide (ticks since < P.lifetime))) := by
    rw [inTime_concat, Nat.zero_add]
    rfl
  simp only [stateOf, due, hticks, hin]
  generalize ticks since = t
  cases inTime P key 0 since with
  | true => simp [step]
  | false =>
    by_cases hlt : t < P.lifetime
    · cases haccepts : P.accepts key a <;> simp [step, hlt, haccepts]
    · simp [step, hlt]

/-- The state that a start leads to. -/
theorem stateOf_start (key : κ) : stateOf P (some (key, [])) = .waiting key 1 P.pause := by
  have hlife : 0 < P.lifetime := Nat.mul_pos P.most_pos P.period_pos
  have hticks : ticks ([] : List (Input κ α)) = 0 := rfl
  simp [stateOf, inTime, hticks, hlife]

/-- One step does what the history says. -/
theorem step_stateOf (h : Option (κ × List (Input κ α))) (e : Input κ α) :
    step P (stateOf P h) e = (due P h e, stateOf P (record h e)) := by
  cases e with
  | start key =>
    rw [record, stateOf_start]
    cases stateOf P h <;> rfl
  | tick =>
    match h with
    | none => rfl
    | some (key, since) => exact step_tick key since
  | answer a =>
    match h with
    | none => rfl
    | some (key, since) => exact step_answer key since a

/-- A run leads from the state of a history to that of the history after it. -/
theorem finish_stateOf (h : Option (κ × List (Input κ α))) (es : List (Input κ α)) :
    (step P).finish (stateOf P h) es = stateOf P (run record h es) := by
  induction es generalizing h with
  | nil => rfl
  | cons e es ih =>
    show (step P).finish (step P (stateOf P h) e).2 es = _
    rw [step_stateOf, ih]
    rfl

/-- In every run, each step does what the history says, and leads to the state that it says. -/
theorem output_eq (es : List (Input κ α)) (e : Input κ α) :
    (step P).finish .idle es = stateOf P (sinceStart es) ∧
      (step P ((step P).finish .idle es) e).1 = due P (sinceStart es) e := by
  have hstate : (step P).finish .idle es = stateOf P (sinceStart es) := finish_stateOf none es
  refine ⟨hstate, ?_⟩
  rw [hstate, step_stateOf]

/-! ## Sendings -/

/-- The numbers under which a request is sent. -/
def sendings (os : List (Output κ)) : List (κ × ℕ) :=
  os.filterMap fun
    | .send key n => some (key, n)
    | _ => none

/-- Nothing is started. -/
def NoStart (es : List (Input κ α)) : Prop := ∀ key, .start key ∉ es

/-- Without a start the record goes on. -/
theorem run_record {es : List (Input κ α)} (hes : NoStart es) (key : κ)
    (since : List (Input κ α)) :
    run record (some (key, since)) es = some (key, since ++ es) := by
  induction es generalizing since with
  | nil => rw [run_nil, List.append_nil]
  | cons e es ih =>
    have hrest : NoStart es := fun k hk => hes k (List.mem_cons_of_mem e hk)
    have hstep : record (some (key, since)) e = some (key, since ++ [e]) := by
      cases e with
      | start k => exact absurd List.mem_cons_self (hes k)
      | tick => rfl
      | answer a => rfl
    rw [run_cons, hstep, ih hrest, List.append_assoc, List.singleton_append]

/-- A start, and what happens after it, leads to the state that this says. -/
theorem finish_start (s : State κ) (key : κ) {es : List (Input κ α)} (hes : NoStart es) :
    (step P).finish s (.start key :: es) = stateOf P (some (key, es)) := by
  have hfirst : (step P s (.start key)).2 = stateOf P (some (key, [])) := by
    rw [stateOf_start]
    cases s <;> rfl
  show (step P).finish (step P s (.start key)).2 es = _
  rw [hfirst, finish_stateOf, run_record hes, List.nil_append]

/-- A tick of a request without an answer sends the next number, if one is due. -/
theorem sendings_due_tick (key : κ) {since : List (Input κ α)}
    (hin : inTime P key 0 since = false) :
    let n := min P.most (ticks since / P.period + 1)
    let n' := min P.most (ticks (since ++ [.tick]) / P.period + 1)
    (List.range n).map (key, ·) ++ sendings (due P (some (key, since)) .tick) =
      (List.range n').map (key, ·) := by
  have hticks : ticks (since ++ [.tick] : List (Input κ α)) = ticks since + 1 := ticks_append _ _
  simp only [due, hin, hticks, Bool.false_eq_true, false_or]
  generalize ticks since = t
  have hlife : P.lifetime = P.most * P.period := rfl
  have hfull : P.most * P.period ≤ t + 1 → P.most ≤ (t + 1) / P.period :=
    (Nat.le_div_iff_mul_le P.period_pos).mpr
  by_cases hleft : t % P.period < P.pause
  -- In the middle of a period nothing is sent and the count stays.
  · obtain ⟨hdiv, hrem⟩ := div_mod_succ_of_lt hleft
    have hnot : ¬ P.period ∣ t + 1 := by
      rw [Nat.dvd_iff_mod_eq_zero]
      omega
    rw [if_pos (Or.inl hnot), hdiv]
    exact List.append_nil _
  · obtain ⟨hdiv, hrem⟩ := div_mod_succ_of_not_lt hleft
    have hdvd : P.period ∣ t + 1 := Nat.dvd_of_mod_eq_zero hrem
    rw [← hdiv]
    by_cases hlate : P.lifetime ≤ t + 1
    · -- The request has been sent for the last time.
      have hmost := hfull (hlife ▸ hlate)
      rw [Nat.min_eq_left hmost, Nat.min_eq_left (by omega)]
      split
      · exact List.append_nil _
      · rw [if_pos (by omega)]
        exact List.append_nil _
    · have hless : (t + 1) / P.period < P.most := by
        rw [Nat.div_lt_iff_lt_mul P.period_pos]
        omega
      have hdue : ¬ (¬ P.period ∣ t + 1 ∨ P.lifetime < t + 1) := by
        rw [not_or, not_not]
        exact ⟨hdvd, by omega⟩
      rw [if_neg hdue, if_neg (by omega), Nat.min_eq_right hless.le, Nat.min_eq_right hless,
        List.range_succ, List.map_append]
      rfl

/-- A request that is started is sent under the numbers from 0 on, in order. There are at most
`most` of them, and if no answer is accepted in time, one for each period that has begun. -/
theorem emitted_start (s : State κ) (key : κ) {es : List (Input κ α)} (hes : NoStart es) :
    ∃ n ≤ P.most,
      sendings ((step P).emitted s (.start key :: es)) = (List.range n).map (key, ·) ∧
      (inTime P key 0 es = false → n = min P.most (ticks es / P.period + 1)) := by
  have hfirst : (step P).emitted s (.start key :: es) =
      .send key 0 :: (step P).emitted (stateOf P (some (key, []))) es := by
    rw [Machine.emitted, stateOf_start]
    cases s <;> rfl
  rw [hfirst]
  clear hfirst
  -- By induction on the inputs since the start, the last one first.
  induction es using List.reverseRecOn with
  | nil =>
    refine ⟨1, P.most_pos, rfl, fun _ => ?_⟩
    have hticks : ticks ([] : List (Input κ α)) = 0 := rfl
    have hpos := P.most_pos
    rw [hticks, Nat.zero_div]
    omega
  | append_singleton es e ih =>
    have hpre : NoStart es := fun k hk => hes k (List.mem_append_left _ hk)
    obtain ⟨n, hn, hsent, hall⟩ := ih hpre
    have hlast : (step P).emitted (stateOf P (some (key, []))) (es ++ [e]) =
        (step P).emitted (stateOf P (some (key, []))) es ++ due P (some (key, es)) e := by
      rw [Machine.emitted_append, finish_stateOf, run_record hpre, List.nil_append, Machine.emitted,
        step_stateOf]
      exact congrArg _ (List.append_nil _)
    have hsplit : sendings (.send key 0 ::
        (step P).emitted (stateOf P (some (key, []))) (es ++ [e])) =
        (List.range n).map (key, ·) ++ sendings (due P (some (key, es)) e) := by
      rw [hlast, ← List.cons_append, ← hsent]
      exact List.filterMap_append
    rw [hsplit]
    cases e with
    | start k => exact absurd (List.mem_append_right es (List.mem_singleton_self _)) (hes k)
    -- An answer sends nothing and is no tick.
    | answer a =>
      have hnone : sendings (due P (some (key, es)) (.answer a)) = [] := by
        unfold due
        dsimp only
        split <;> rfl
      have hticks : ticks (es ++ [.answer a]) = ticks es := ticks_append _ _
      refine ⟨n, hn, by rw [hnone, List.append_nil], fun hin => ?_⟩
      rw [inTime_concat, Bool.or_eq_false_iff] at hin
      rw [hticks]
      exact hall hin.1
    -- A tick sends while no answer has come in time.
    | tick =>
      cases hin : inTime P key 0 es with
      | true =>
        have hnone : sendings (due P (some (key, es)) .tick) = [] := by
          simp [due, hin, sendings]
        refine ⟨n, hn, by rw [hnone, List.append_nil], fun hin' => ?_⟩
        rw [inTime_concat, hin] at hin'
        cases hin'
      | false =>
        refine ⟨_, Nat.min_le_left _ _, ?_, fun _ => rfl⟩
        rw [hall hin]
        exact sendings_due_tick key hin

end Lib.Retry
