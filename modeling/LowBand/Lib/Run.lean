import Mathlib.Logic.Basic

/-!
# Runs of a state machine

A run takes events one after another from a state. `Guarded ok s es` says that every event of a
run meets a condition in the state in which it is taken. `run_invariant` and `run_induction` are the
inductions that all safety proofs over runs use, with and without such a condition.

`Machine` is for steps that give outputs as well: `finish` is the state after a run and `emitted`
all that was output on the way. `view_alone` is the rule for parties that share a machine without
seeing each other.
-/

namespace Lib

variable {σ ε : Type*} (step : σ → ε → σ)

/-- The state after the events of `es`, taken in order from `s`. -/
def run (s : σ) (es : List ε) : σ := es.foldl step s

/-- A run of no events. -/
@[simp]
theorem run_nil (s : σ) : run step s [] = s := rfl

/-- A run goes on from its first step. -/
@[simp]
theorem run_cons (s : σ) (e : ε) (es : List ε) : run step s (e :: es) = run step (step s e) es :=
  rfl

/-- Runs compose. -/
theorem run_append (s : σ) (es fs : List ε) :
    run step s (es ++ fs) = run step (run step s es) fs := by
  unfold run
  exact List.foldl_append

/-- Every event of the run meets `ok` in the state in which it is taken. -/
def Guarded (ok : σ → ε → Prop) : σ → List ε → Prop
  | _, [] => True
  | s, e :: es => ok s e ∧ Guarded ok (step s e) es

/-- A run in two parts is guarded when both parts are. -/
theorem guarded_append {ok : σ → ε → Prop} {s : σ} {es fs : List ε} :
    Guarded step ok s (es ++ fs) ↔ Guarded step ok s es ∧ Guarded step ok (run step s es) fs := by
  induction es generalizing s with
  | nil => simp [Guarded]
  | cons e es ih => simp only [List.cons_append, Guarded, run_cons, ih, and_assoc]

/-- Whether a run is guarded can be decided step by step. -/
instance decidableGuarded (ok : σ → ε → Prop) [∀ s e, Decidable (ok s e)] :
    ∀ (s : σ) (es : List ε), Decidable (Guarded step ok s es)
  | _, [] => isTrue trivial
  | s, e :: es =>
    have := decidableGuarded ok (step s e) es
    inferInstanceAs (Decidable (ok s e ∧ Guarded step ok (step s e) es))

variable {step}

/-- A run is guarded when each of its events meets the guard after the events before it. -/
theorem guarded_iff_forall_append {ok : σ → ε → Prop} {s : σ} {es : List ε} :
    Guarded step ok s es ↔ ∀ pre e post, es = pre ++ e :: post → ok (run step s pre) e := by
  induction es generalizing s with
  | nil => simp [Guarded]
  | cons e es ih =>
    constructor
    · rintro ⟨he, hes⟩ pre e' post h
      cases pre with
      | nil =>
        obtain ⟨rfl, -⟩ := List.cons.inj h
        exact he
      | cons a pre =>
        obtain ⟨rfl, hrest⟩ := List.cons.inj h
        exact ih.mp hes pre e' post hrest
    · intro h
      refine ⟨h [] e es rfl, ih.mpr ?_⟩
      rintro pre e' post rfl
      exact h (e :: pre) e' post rfl

/-- What holds initially and is kept by every step that meets the guard holds after every guarded
run. -/
theorem run_invariant {ok : σ → ε → Prop} {inv : σ → Prop}
    (hstep : ∀ s e, inv s → ok s e → inv (step s e)) {s : σ} {es : List ε}
    (hg : Guarded step ok s es) (h : inv s) : inv (run step s es) := by
  induction es generalizing s with
  | nil => exact h
  | cons e es ih => exact ih hg.2 (hstep s e h hg.1)

/-- What holds initially and is kept by every step holds after every run. -/
theorem run_induction {inv : σ → Prop} (hstep : ∀ s e, inv s → inv (step s e)) {s : σ}
    (es : List ε) (h : inv s) : inv (run step s es) := by
  induction es generalizing s with
  | nil => exact h
  | cons e es ih => exact ih (hstep s e h)

/-- When the invariant and the guard of a step give a property of the step, every step of a guarded
run has it. -/
theorem guarded_of_invariant {ok cond : σ → ε → Prop} {inv : σ → Prop}
    (hinv : ∀ s e, inv s → ok s e → inv (step s e))
    (hcond : ∀ s e, inv s → ok s e → cond s e) {s : σ} {es : List ε}
    (hg : Guarded step ok s es) (h : inv s) : Guarded step cond s es := by
  induction es generalizing s with
  | nil => trivial
  | cons e es ih => exact ⟨hcond s e h hg.1, ih hg.2 (hinv s e h hg.1)⟩

/-- When each step keeps a property exactly if the step meets a condition, a run from a state with
the property ends with it exactly if all its steps met the condition. -/
theorem run_iff_guarded {ok cond : σ → ε → Prop} {inv P : σ → Prop}
    (hinv : ∀ s e, inv s → ok s e → inv (step s e))
    (hP : ∀ s e, inv s → ok s e → (P (step s e) ↔ P s ∧ cond s e)) {s : σ} {es : List ε}
    (hg : Guarded step ok s es) (h : inv s) :
    P (run step s es) ↔ P s ∧ Guarded step cond s es := by
  induction es generalizing s with
  | nil => exact (and_iff_left trivial).symm
  | cons e es ih =>
    rw [run_cons, ih hg.2 (hinv s e h hg.1), hP s e h hg.1, and_assoc]
    rfl

/-- When each step of a guarded run from a state with a property keeps the property exactly if it
meets a condition, all states of the run have the property exactly if all its steps met the
condition. -/
theorem forall_isPrefix_iff_guarded_of_guarded {ok cond : σ → ε → Prop} {P : σ → Prop}
    (hP : ∀ s e, P s → ok s e → (P (step s e) ↔ cond s e)) {s : σ} {es : List ε}
    (hg : Guarded step ok s es) (h : P s) :
    (∀ pre, pre <+: es → P (run step s pre)) ↔ Guarded step cond s es := by
  -- By induction on the run: the first step is one prefix, the others extend it.
  induction es generalizing s with
  | nil =>
    refine iff_of_true ?_ trivial
    intro pre hpre
    rw [List.prefix_nil.mp hpre]
    exact h
  | cons e es ih =>
    obtain ⟨hok, hrest⟩ := hg
    constructor
    · intro hall
      have he : P (step s e) := hall [e] ⟨es, rfl⟩
      refine ⟨(hP s e h hok).mp he, (ih hrest he).mp ?_⟩
      intro pre hpre
      exact hall (e :: pre) (List.cons_prefix_cons.mpr ⟨rfl, hpre⟩)
    · rintro ⟨he, hes⟩ pre hpre
      cases pre with
      | nil => exact h
      | cons a pre =>
        obtain ⟨rfl, htail⟩ := List.cons_prefix_cons.mp hpre
        exact (ih hrest ((hP s a h hok).mpr he)).mpr hes pre htail

/-- The same for all runs. -/
theorem forall_isPrefix_iff_guarded {cond : σ → ε → Prop} {P : σ → Prop}
    (hP : ∀ s e, P s → (P (step s e) ↔ cond s e)) {s : σ} {es : List ε} (h : P s) :
    (∀ pre, pre <+: es → P (run step s pre)) ↔ Guarded step cond s es := by
  have hfree : Guarded step (fun _ _ => True) s es :=
    guarded_iff_forall_append.mpr fun _ _ _ _ => trivial
  exact forall_isPrefix_iff_guarded_of_guarded (fun s e hs _ => hP s e hs) hfree h

/-! ## Machines with outputs -/

/-- A step that takes an event in a state and gives outputs. -/
abbrev Machine (σ ε ο : Type*) := σ → ε → List ο × σ

namespace Machine

variable {ο : Type*} (m : Machine σ ε ο)

/-- The state after the events of `es`. -/
def finish (s : σ) (es : List ε) : σ := run (fun s e => (m s e).2) s es

/-- What the events of `es` output, in order. -/
def emitted : σ → List ε → List ο
  | _, [] => []
  | s, e :: es => (m s e).1 ++ emitted (m s e).2 es

/-- The outputs of a run in two parts. -/
theorem emitted_append (s : σ) (es fs : List ε) :
    m.emitted s (es ++ fs) = m.emitted s es ++ m.emitted (m.finish s es) fs := by
  induction es generalizing s with
  | nil => rfl
  | cons e es ih =>
    rw [List.cons_append, emitted, emitted, ih, List.append_assoc]
    rfl

/-- The state after a run in two parts. -/
theorem finish_append (s : σ) (es fs : List ε) :
    m.finish s (es ++ fs) = m.finish (m.finish s es) fs :=
  run_append _ s es fs

variable {m}

/-- What a run outputs, one of its events outputs in the state after those before it. -/
theorem mem_emitted_iff {s : σ} {es : List ε} {o : ο} :
    o ∈ m.emitted s es ↔
      ∃ pre e post, es = pre ++ e :: post ∧ o ∈ (m (m.finish s pre) e).1 := by
  constructor
  · intro h
    induction es generalizing s with
    | nil => cases h
    | cons e es ih =>
      rcases List.mem_append.mp h with h | h
      · exact ⟨[], e, es, rfl, h⟩
      · obtain ⟨pre, e', post, rfl, h'⟩ := ih h
        exact ⟨e :: pre, e', post, rfl, h'⟩
  · rintro ⟨pre, e, post, rfl, h⟩
    rw [emitted_append]
    exact List.mem_append_right _ (List.mem_append_left _ h)

/-- What each step outputs from a state with the invariant, a whole run outputs. -/
theorem forall_mem_emitted (inv : σ → Prop) {P : ο → Prop}
    (hstep : ∀ s e, inv s → inv (m s e).2 ∧ ∀ o ∈ (m s e).1, P o) {s : σ} {es : List ε}
    (h : inv s) : ∀ o ∈ m.emitted s es, P o := by
  induction es generalizing s with
  | nil => simp [emitted]
  | cons e es ih =>
    obtain ⟨hnext, hout⟩ := hstep s e h
    intro o ho
    rcases List.mem_append.mp ho with ho | ho
    · exact hout o ho
    · exact ih hnext o ho

/-- When the outputs of a step have a property exactly if the step meets a condition, all that a run
outputs has the property exactly if all its steps meet the condition. -/
theorem forall_mem_emitted_iff_guarded {cond : σ → ε → Prop} {P : ο → Prop}
    (hP : ∀ s e, (∀ o ∈ (m s e).1, P o) ↔ cond s e) {s : σ} {es : List ε} :
    (∀ o ∈ m.emitted s es, P o) ↔ Guarded (fun s e => (m s e).2) cond s es := by
  induction es generalizing s with
  | nil => exact iff_of_true (List.forall_mem_nil P) trivial
  | cons e es ih =>
    show (∀ o ∈ (m s e).1 ++ m.emitted (m s e).2 es, P o) ↔ _
    rw [List.forall_mem_append, hP s e, ih]
    rfl

/-- When each event outputs no more of a kind than its step takes from a stock, a run outputs no
more than the stock. -/
theorem countP_emitted_le (p : ο → Bool) (stock : σ → Nat) {es : List ε}
    (hstep : ∀ e ∈ es, ∀ s, (m s e).1.countP p + stock (m s e).2 ≤ stock s) {s : σ} :
    (m.emitted s es).countP p + stock (m.finish s es) ≤ stock s := by
  induction es generalizing s with
  | nil => exact Nat.le_of_eq (Nat.zero_add _)
  | cons e es ih =>
    obtain ⟨he, hes⟩ := List.forall_mem_cons.mp hstep
    have hrest := ih hes (s := (m s e).2)
    have hfirst := he s
    rw [emitted, List.countP_append]
    show _ + stock (m.finish (m s e).2 es) ≤ _
    omega

/-- A relation of two machines that every event keeps, with the same outputs on both sides, holds
after every run, and the two runs output the same. -/
theorem simulation {τ : Type*} {n : Machine τ ε ο} (R : σ → τ → Prop) {es : List ε}
    (hstep : ∀ e ∈ es, ∀ s t, R s t → (m s e).1 = (n t e).1 ∧ R (m s e).2 (n t e).2)
    {s : σ} {t : τ} (h : R s t) :
    m.emitted s es = n.emitted t es ∧ R (m.finish s es) (n.finish t es) := by
  induction es generalizing s t with
  | nil => exact ⟨rfl, h⟩
  | cons e es ih =>
    obtain ⟨hfirst, hrest⟩ := List.forall_mem_cons.mp hstep
    obtain ⟨hout, hnext⟩ := hfirst s t h
    obtain ⟨hemitted, hlast⟩ := ih hrest hnext
    refine ⟨?_, hlast⟩
    rw [emitted, emitted, hout, hemitted]

/-- What a party sees of a run in which it shares the machine with others, given that the others'
events change nothing that it sees and that what its own events do depends only on what it sees: it
is what the party sees when its events are run alone. -/
theorem view_alone {V : Type*} (view : σ → V) (mine : ε → Bool) (seen : ο → Bool) {es : List ε}
    (hothers : ∀ e ∈ es, mine e = false →
      ∀ s, view (m s e).2 = view s ∧ (m s e).1.filter seen = [])
    (hmine : ∀ e ∈ es, mine e = true → ∀ s t, view s = view t →
      view (m s e).2 = view (m t e).2 ∧ (m s e).1.filter seen = (m t e).1.filter seen)
    {s t : σ} (h : view s = view t) :
    view (m.finish s es) = view (m.finish t (es.filter mine)) ∧
      (m.emitted s es).filter seen = (m.emitted t (es.filter mine)).filter seen := by
  -- By induction on the run, from any two states with one view.
  induction es generalizing s t with
  | nil => exact ⟨h, rfl⟩
  | cons e es ih =>
    obtain ⟨hother, hothers⟩ := List.forall_mem_cons.mp hothers
    obtain ⟨hown, hmine⟩ := List.forall_mem_cons.mp hmine
    cases he : mine e with
    -- A step of one's own happens in both runs.
    | true =>
      obtain ⟨hview, hout⟩ := hown he s t h
      obtain ⟨hlast, hrest⟩ := ih hothers hmine hview
      rw [List.filter_cons_of_pos he]
      refine ⟨hlast, ?_⟩
      rw [emitted, emitted, List.filter_append, List.filter_append, hout, hrest]
    -- A step of the others is left out of the second run.
    | false =>
      obtain ⟨hview, hout⟩ := hother he s
      obtain ⟨hlast, hrest⟩ := ih hothers hmine (hview.trans h)
      rw [List.filter_cons_of_neg (by simp [he])]
      refine ⟨hlast, ?_⟩
      rw [emitted, List.filter_append, hout, hrest, List.nil_append]

/-- A machine that no event brings up again stays down. -/
theorem finish_none {m : Machine (Option σ) ε ο} (hdown : ∀ e, m none e = ([], none))
    (es : List ε) : m.finish none es = none := by
  have hkeep : ∀ s e, s = none → (m s e).2 = none := by
    rintro _ e rfl
    exact congrArg Prod.snd (hdown e)
  exact run_induction hkeep es rfl

/-- A run that brings the machine down has an event that does so in a state that the events before
it lead to. -/
theorem exists_crash {m : Machine (Option σ) ε ο} {s : σ} {es : List ε}
    (h : m.finish (some s) es = none) :
    ∃ pre e post q, es = pre ++ e :: post ∧ m.finish (some s) pre = some q ∧
      (m (some q) e).2 = none := by
  induction es generalizing s with
  | nil => cases h
  | cons e es ih =>
    cases hs' : (m (some s) e).2 with
    | none => exact ⟨[], e, es, s, rfl, rfl, hs'⟩
    | some s' =>
      change m.finish (m (some s) e).2 es = none at h
      rw [hs'] at h
      obtain ⟨pre, e', post, q, rfl, hq, hdown⟩ := ih h
      refine ⟨e :: pre, e', post, q, rfl, ?_, hdown⟩
      change m.finish (m (some s) e).2 pre = some q
      rw [hs', hq]

/-- What a party sees of a run that goes through to the end, of a machine that an event of anyone
can bring down (`none`): it is what the party sees when its events are run alone. The others'
events, as long as the machine survives them, change nothing that it sees, and what its own events
do depends only on what it sees. -/
theorem alone_of_survives {m : Machine (Option σ) ε ο} (same : σ → σ → Prop) (mine : ε → Bool)
    (seen : ο → Bool) (hdown : ∀ e, m none e = ([], none))
    (hothers : ∀ e, mine e = false → ∀ s q, (m (some s) e).2 = some q →
      (∀ t, same s t → same q t) ∧ (m (some s) e).1.filter seen = [])
    (hmine : ∀ e, mine e = true → ∀ s t q, same s t → (m (some s) e).2 = some q →
      ∃ q', (m (some t) e).2 = some q' ∧ same q q' ∧
        (m (some s) e).1.filter seen = (m (some t) e).1.filter seen)
    {s t q : σ} {es : List ε} (h : same s t) (hq : m.finish (some s) es = some q) :
    ∃ q', m.finish (some t) (es.filter mine) = some q' ∧ same q q' ∧
      (m.emitted (some s) es).filter seen = (m.emitted (some t) (es.filter mine)).filter seen := by
  induction es generalizing s t with
  | nil =>
    obtain rfl := Option.some.inj hq
    exact ⟨t, rfl, h, rfl⟩
  | cons e es ih =>
    change m.finish (m (some s) e).2 es = some q at hq
    -- The machine survives the first event, since nothing brings it up again.
    obtain ⟨s', hs'⟩ : ∃ s', (m (some s) e).2 = some s' := by
      cases hs' : (m (some s) e).2 with
      | some s' => exact ⟨s', rfl⟩
      | none =>
        rw [hs', finish_none hdown] at hq
        cases hq
    rw [hs'] at hq
    cases he : mine e with
    | true =>
      obtain ⟨t', ht', hsame, hout⟩ := hmine e he s t s' h hs'
      obtain ⟨q', hlast, hsameq, hrest⟩ := ih hsame hq
      rw [List.filter_cons_of_pos he]
      refine ⟨q', ?_, hsameq, ?_⟩
      · change m.finish (m (some t) e).2 (es.filter mine) = some q'
        rw [ht', hlast]
      · rw [emitted, emitted, List.filter_append, List.filter_append, hs', ht', hout, hrest]
    | false =>
      obtain ⟨hkeep, hout⟩ := hothers e he s s' hs'
      obtain ⟨q', hlast, hsameq, hrest⟩ := ih (hkeep t h) hq
      rw [List.filter_cons_of_neg (by simp [he])]
      refine ⟨q', hlast, hsameq, ?_⟩
      rw [emitted, List.filter_append, hs', hout, hrest, List.nil_append]

/-- A machine that reads a stream in pieces: an empty piece does nothing, and two pieces do what
they do as one. -/
structure Streaming {α : Type*} (m : Machine σ (List α) ο) : Prop where
  /-- An empty piece does nothing. -/
  nil : ∀ s, m s [] = ([], s)
  /-- Two pieces do what they do as one. -/
  append : ∀ s a b, m s (a ++ b) = ((m s a).1 ++ (m (m s a).2 b).1, (m (m s a).2 b).2)

/-- However a stream is cut into pieces, the machine does what it does with the whole. -/
theorem Streaming.flatten {α : Type*} {m : Machine σ (List α) ο} (hm : m.Streaming) (s : σ)
    (pieces : List (List α)) :
    (m.emitted s pieces, m.finish s pieces) = m s pieces.flatten := by
  induction pieces generalizing s with
  | nil => exact (hm.nil s).symm
  | cons a pieces ih =>
    rw [List.flatten_cons, hm.append, ← ih]
    rfl

end Machine

end Lib
