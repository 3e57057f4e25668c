import LowBand.Lib.Run
import LowBand.Lib.Streak
import Mathlib.Data.List.Basic

/-!
# Loss concealment and in-band FEC

`PlcChain` (`core/platform/src/plc_chain.rs`) names a concealment stage for every lost audio frame,
by the length of the loss burst so far. `LbrrDecoder` (`core/platform/src/lbrr_fec.rs`) remembers
that the next packet should be decoded with `decode_fec`. `receiver` is the receive loop that both
modules prescribe: the chain advances once per frame slot, the stage `FecDecode` marks an isolated
loss, and every received packet consumes the mark.

After any slots the chain's burst is the streak of lost slots (`receiver_burst`), and the mark is
set when that streak is not empty (`receiver_fecPending`): the chain names `FecDecode` at the first
lost frame, before it is known whether the burst goes on, and nothing takes the mark back when it
does.
So a packet is decoded with FEC after a burst of any length (`receiver_decodeFec`), where the
modules promise this for bursts of one frame only.
-/

namespace LowBand.Platform

open Lib

/-- The stage applied to conceal a lost frame. -/
inductive PlcStage
  | fecDecode
  | dred
  | neuralPlc
  | comfortNoise
  deriving DecidableEq, Repr

/-- The result of advancing the chain by one frame. -/
inductive PlcOutcome
  | received
  | concealed (stage : PlcStage)
  deriving DecidableEq, Repr

/-- The frames that neural synthesis covers before comfort noise, `NEURAL_PLC_MAX_FRAMES`. -/
def neuralPlcMaxFrames : ℕ := 5

/-- The deepest DRED coverage, `DRED_DEPTH_FRAMES`. -/
def dredDepthFrames : ℕ := 50

/-- The concealment chain: its DRED depth and the lost frames of the burst so far. -/
structure PlcChain where
  dredDepth : ℕ
  burst : ℕ
  deriving DecidableEq, Repr

namespace PlcChain

/-- A chain that has lost nothing yet. -/
def new (dredDepthFrames : ℕ) : PlcChain := ⟨dredDepthFrames, 0⟩

/-- One frame: a received one ends the burst, a lost one extends it and is concealed by the stage
that covers the burst's length. -/
def advance (c : PlcChain) (received : Bool) : PlcOutcome × PlcChain :=
  if received then
    (.received, { c with burst := 0 })
  else
    let c := { c with burst := c.burst + 1 }
    let stage : PlcStage :=
      if c.burst = 1 then .fecDecode
      else if c.burst ≤ c.dredDepth then .dred
      else if c.burst ≤ c.dredDepth + neuralPlcMaxFrames then .neuralPlc
      else .comfortNoise
    (.concealed stage, c)

end PlcChain

/-- The decoder's mark that the next packet carries the lost frame. -/
structure LbrrDecoder where
  fecPending : Bool
  deriving DecidableEq, Repr

namespace LbrrDecoder

/-- A decoder with no mark. -/
def new : LbrrDecoder := ⟨false⟩

/-- An isolated loss sets the mark. -/
def markIsolatedLoss (_ : LbrrDecoder) : LbrrDecoder := ⟨true⟩

/-- An arriving packet reads the mark and clears it. -/
def consumeFecPending (d : LbrrDecoder) : Bool × LbrrDecoder := (d.fecPending, ⟨false⟩)

end LbrrDecoder

/-- The two objects of the receive loop. -/
structure Receiver where
  chain : PlcChain
  decoder : LbrrDecoder
  deriving DecidableEq, Repr

namespace Receiver

/-- A receive loop before its first slot. -/
def new (dredDepthFrames : ℕ) : Receiver := ⟨.new dredDepthFrames, .new⟩

/-- One frame slot of the receive loop. A received packet gives whether it is decoded with FEC. -/
def slot (r : Receiver) (received : Bool) : Option Bool × Receiver :=
  let (outcome, chain) := r.chain.advance received
  let decoder := if outcome = .concealed .fecDecode then r.decoder.markIsolatedLoss else r.decoder
  if received then
    let (pending, decoder) := decoder.consumeFecPending
    (some pending, ⟨chain, decoder⟩)
  else
    (none, ⟨chain, decoder⟩)

/-- The receive loop after the slots of a loss pattern. -/
def after (dredDepthFrames : ℕ) (slots : List Bool) : Receiver :=
  run (fun r received => (r.slot received).2) (new dredDepthFrames) slots

/-- The burst of lost frames at the end of a pattern. -/
def burstBefore (slots : List Bool) : ℕ := streak (fun received => !received) slots

/-- A received packet: the chain is idle, and the packet is decoded with FEC if the mark was set. -/
theorem slot_true (r : Receiver) :
    r.slot true = (some r.decoder.fecPending, ⟨⟨r.chain.dredDepth, 0⟩, ⟨false⟩⟩) := rfl

/-- A lost frame: the burst grows, and the mark is set if this is the first of the burst. -/
theorem slot_false (r : Receiver) :
    r.slot false = (none, ⟨⟨r.chain.dredDepth, r.chain.burst + 1⟩,
      ⟨decide (r.chain.burst = 0) || r.decoder.fecPending⟩⟩) := by
  obtain ⟨⟨depth, burst⟩, ⟨pending⟩⟩ := r
  by_cases hfirst : burst = 0
  · subst hfirst
    rfl
  · have hstage : ((PlcChain.mk depth burst).advance false).1 ≠ .concealed .fecDecode := by
      unfold PlcChain.advance
      simp only [Bool.false_eq_true, if_false, Nat.add_eq_right, hfirst, ne_eq,
        PlcOutcome.concealed.injEq]
      split
      · exact PlcStage.noConfusion
      · split <;> exact PlcStage.noConfusion
    unfold slot
    simp only [hstage, if_false, Bool.false_eq_true, hfirst, decide_false, Bool.false_or]
    rfl

variable (depth : ℕ)

/-- The chain after one more slot. -/
theorem after_concat (slots : List Bool) (received : Bool) :
    after depth (slots ++ [received]) = ((after depth slots).slot received).2 := by
  unfold after
  rw [run_append]
  rfl

/-- After any slots the chain's burst is the streak of lost slots at the end. -/
theorem receiver_burst (slots : List Bool) :
    (after depth slots).chain.burst = burstBefore slots := by
  induction slots using List.reverseRecOn with
  | nil => rfl
  | append_singleton slots received ih =>
    unfold burstBefore at ih ⊢
    rw [after_concat, streak_concat]
    cases received with
    | true => rfl
    | false => rw [slot_false, ih]; rfl

/-- After any slots the mark is set when the last slot was lost: the first loss of a burst sets it,
and the other losses keep it. -/
theorem receiver_fecPending (slots : List Bool) :
    (after depth slots).decoder.fecPending = decide (0 < burstBefore slots) := by
  induction slots using List.reverseRecOn with
  | nil => rfl
  | append_singleton slots received ih =>
    have hburst := receiver_burst depth slots
    unfold burstBefore at ih hburst ⊢
    rw [after_concat, streak_concat]
    cases received with
    | true => rfl
    | false =>
      rw [slot_false, ih, hburst]
      simp only [Bool.not_false, if_true, Nat.zero_lt_succ, decide_true, Bool.or_eq_true,
        decide_eq_true_eq]
      exact Nat.eq_zero_or_pos _

/-- What `consume_fec_pending` answers on a packet that arrives after the slots. -/
def decodeFec (depth : ℕ) (slots : List Bool) : Option Bool := ((after depth slots).slot true).1

/-- A packet is decoded with FEC when any burst precedes it. -/
theorem receiver_decodeFec (slots : List Bool) :
    decodeFec depth slots = some (decide (0 < burstBefore slots)) := by
  unfold decodeFec
  rw [slot_true, receiver_fecPending]

/-- FEC is used exactly for isolated losses: on every received packet of the pattern, the packet is
decoded with FEC if and only if the burst right before it has one frame. -/
def FecOnlyForIsolated (depth : ℕ) (pattern : List Bool) : Prop :=
  ∀ before rest, pattern = before ++ true :: rest →
    (decodeFec depth before = some true ↔ burstBefore before = 1)

/-- A burst has at least two frames when the last two slots were lost. -/
theorem two_le_burstBefore {slots : List Bool} :
    2 ≤ burstBefore slots ↔ ∃ a, slots = a ++ [false, false] := by
  unfold burstBefore
  rw [le_streak_iff]
  constructor
  · rintro ⟨a, b, rfl, hlen, hb⟩
    obtain ⟨x, y, rfl⟩ := List.length_eq_two.mp hlen
    have hx : x = false := by simpa using hb x (by simp)
    have hy : y = false := by simpa using hb y (by simp)
    exact ⟨a, by rw [hx, hy]⟩
  · rintro ⟨a, rfl⟩
    exact ⟨a, [false, false], rfl, rfl, by simp⟩

/-- The receive loop uses FEC exactly for isolated losses if and only if the pattern has no packet
that arrives after two lost frames. -/
theorem fecOnlyForIsolated_iff (depth : ℕ) (pattern : List Bool) :
    FecOnlyForIsolated depth pattern ↔ ¬ [false, false, true] <:+: pattern := by
  have hanswer : ∀ before, (decodeFec depth before = some true ↔ burstBefore before = 1) ↔
      ¬ 2 ≤ burstBefore before := by
    intro before
    rw [receiver_decodeFec, Option.some.injEq, decide_eq_true_eq]
    omega
  unfold FecOnlyForIsolated
  simp only [hanswer, two_le_burstBefore]
  constructor
  · rintro h ⟨a, rest, rfl⟩
    exact h (a ++ [false, false]) rest (by simp) ⟨a, rfl⟩
  · rintro h before rest rfl ⟨a, rfl⟩
    exact h ⟨a, rest, by simp⟩

/-- After a burst of two lost frames the packet is decoded with FEC. -/
theorem not_fecOnlyForIsolated :
    ¬ FecOnlyForIsolated dredDepthFrames [false, false, true] := by
  intro h
  have hburst : burstBefore [false, false] = 1 := (h [false, false] [] rfl).mp rfl
  exact absurd hburst (by decide)

end Receiver

end LowBand.Platform
