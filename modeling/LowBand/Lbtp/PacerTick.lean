import LowBand.Lbtp.Pacer

/-!
# The frames that a state admits

Which frames a tick sends can be said of the state, without the loop. A state admits the first
`n ch` frames of each channel `ch` when the tokens and the datagram cover them all, and the next
frame of a channel would be too much behind the frames of the channels up to its own (`Admits`).

Every state admits such numbers, those of the frames that `drain_tick` collects (`admits_drain`).
And they are the only ones (`Admits.eq`). Otherwise let two choices first differ at a channel
of the priority order. Then the longer one holds a frame for which the shorter one has no room.
-/

namespace LowBand.Lbtp

open Lib

/-- The bytes that frames take do not depend on their order. -/
theorem slots_perm {fs gs : List PacerFrame} (h : fs.Perm gs) : slots fs = slots gs :=
  (h.map PacerFrame.slot).sum_eq

/-- Nor do the tokens that they cost. -/
theorem cost_perm {fs gs : List PacerFrame} (h : fs.Perm gs) : cost fs = cost gs :=
  (h.map PacerFrame.cost).sum_eq

/-- Fewer frames take no more bytes. -/
theorem slots_sublist {fs gs : List PacerFrame} (h : fs.Sublist gs) : slots fs ≤ slots gs :=
  (h.map PacerFrame.slot).sum_le_sum fun _ _ => Nat.zero_le _

/-- Fewer frames cost no more tokens. -/
theorem cost_sublist {fs gs : List PacerFrame} (h : fs.Sublist gs) : cost fs ≤ cost gs := by
  refine (h.map PacerFrame.cost).sum_le_sum fun c hc => ?_
  obtain ⟨f, -, rfl⟩ := List.mem_map.mp hc
  exact f.cost_nonneg

/-- Each channel has its own place in the priority order. -/
theorem rank_injective : Function.Injective rank := by decide

/-- The numbers of the channels up to `ch` in the priority order, and none of the others. -/
def upTo (ch : ChannelId) (n : ChannelId → ℕ) : ChannelId → ℕ :=
  fun ch' => if rank ch' ≤ rank ch then n ch' else 0

namespace Pacer

/-- The first `n ch` frames of every channel `ch`, in the priority order. -/
def fronts (p : Pacer) (n : ChannelId → ℕ) : List PacerFrame :=
  priorityOrder.flatMap fun ch => (p.queues ch).take (n ch)

/-- The state has tokens and room for the first `n ch` frames of every channel `ch`, and for no
frame more. -/
structure Admits (p : Pacer) (n : ChannelId → ℕ) : Prop where
  /-- The frames wait in the queues. -/
  queued : ∀ ch, n ch ≤ (p.queues ch).length
  /-- The tokens pay for the frames. -/
  paid : p.fronts n ≠ [] → cost (p.fronts n) ≤ p.tokenBytes
  /-- The datagram holds the frames. -/
  size : slots (p.fronts n) ≤ maxDatagramPayloadBytes
  /-- The next frame of a channel has no room behind the frames of the channels up to its own. -/
  full : ∀ ch f, (p.queues ch)[n ch]? = some f →
    p.tokenBytes < cost (p.fronts (upTo ch n)) + f.cost ∨
      maxDatagramPayloadBytes < slots (p.fronts (upTo ch n)) + f.slot

variable {p : Pacer} {n m : ChannelId → ℕ}

/-! ## The frames of a tick are admitted -/

section Drains

variable {q' : ChannelId → List PacerFrame} {fs : List PacerFrame}

/-- The frames that left a queue are its front. -/
theorem take_length_ofKey (h : Drains PacerFrame.channel p.queues q' fs) (ch : ChannelId) :
    (p.queues ch).take (ofKey PacerFrame.channel ch fs).length =
      ofKey PacerFrame.channel ch fs := by
  rw [h ch]
  exact List.take_left

/-- The frames that left the queues are their fronts. -/
theorem fronts_perm_of_drains (h : Drains PacerFrame.channel p.queues q' fs) :
    (p.fronts fun ch => (ofKey PacerFrame.channel ch fs).length).Perm fs := by
  unfold fronts
  simp only [take_length_ofKey h]
  exact flatMap_ofKey_perm nodup_priorityOrder mem_priorityOrder fs

/-- Those from the channels up to `ch` are the fronts of these channels. -/
theorem fronts_upTo_perm_of_drains (h : Drains PacerFrame.channel p.queues q' fs)
    (ch : ChannelId) :
    (p.fronts (upTo ch fun ch' => (ofKey PacerFrame.channel ch' fs).length)).Perm
      (framesUpTo ch fs) := by
  -- Sorted into their queues, the frames up to `ch` are all of the early queues and none of the
  -- late ones.
  have hqueue : ∀ ch',
      (p.queues ch').take (upTo ch (fun ch' => (ofKey PacerFrame.channel ch' fs).length) ch') =
        ofKey PacerFrame.channel ch' (framesUpTo ch fs) := by
    intro ch'
    unfold upTo framesUpTo ofKey
    rw [List.filter_filter]
    split
    · next hle =>
      refine (take_length_ofKey h ch').trans (List.filter_congr fun f _ => ?_)
      by_cases hch : f.channel = ch'
      · simp [hch, hle]
      · simp [hch]
    · next hgt =>
      refine (List.filter_eq_nil_iff.mpr fun f _ => ?_).symm
      simp only [Bool.and_eq_true, decide_eq_true_eq, not_and]
      rintro rfl
      exact hgt
  unfold fronts
  simp only [hqueue]
  exact flatMap_ofKey_perm nodup_priorityOrder mem_priorityOrder _

end Drains

/-- The frames that `drain_tick` collects are the fronts of the queues. -/
theorem fronts_drain_perm (hp : p.Valid) :
    (p.fronts fun ch => (ofKey PacerFrame.channel ch p.drain.1).length).Perm p.drain.1 := by
  obtain ⟨gs, hout, hspec⟩ := drain_spec hp
  rw [hout]
  exact fronts_perm_of_drains hspec.released.drains

/-- The state admits as many frames of each channel as `drain_tick` collects of it. -/
theorem admits_drain (hp : p.Valid) :
    p.Admits fun ch => (ofKey PacerFrame.channel ch p.drain.1).length := by
  obtain ⟨gs, hout, hspec⟩ := drain_spec hp
  rw [hout]
  have hdrains := hspec.released.drains
  have hperm := fronts_perm_of_drains hdrains
  -- A prefix of each queue; what the tokens pay for; what one packet holds; and nothing more.
  refine ⟨fun ch => ?_, fun hne => ?_, ?_, fun ch f hf => ?_⟩
  · rw [hdrains ch, List.length_append]
    exact Nat.le_add_right _ _
  · have hgs : gs ≠ [] := by
      rintro rfl
      exact hne (List.perm_nil.mp hperm)
    have hpaid := hspec.released.paid hgs
    rw [hspec.released.tokens, sub_nonneg] at hpaid
    rwa [cost_perm hperm]
  · rw [slots_perm hperm]
    simpa using hspec.size
  · -- The next frame is the one that stays at the front.
    have hhead : f ∈ (p.drain.2.queues ch).head? := by
      rw [hdrains ch, List.getElem?_append_right le_rfl, Nat.sub_self] at hf
      rwa [List.head?_eq_getElem?]
    have hupTo := fronts_upTo_perm_of_drains hdrains ch
    rw [cost_perm hupTo, slots_perm hupTo]
    simpa using hspec.blocked ch f hhead

/-! ## No other numbers are admitted -/

/-- One more frame of a channel joins the fronts. -/
theorem fronts_update_perm {ch : ChannelId} {f : PacerFrame}
    (hf : (p.queues ch)[n ch]? = some f) :
    (p.fronts (Function.update n ch (n ch + 1))).Perm (f :: p.fronts n) := by
  -- The front of each channel, with the new frame at its own channel.
  have hqueue : ∀ ch', (p.queues ch').take (Function.update n ch (n ch + 1) ch') =
      (p.queues ch').take (n ch') ++ ofKey (fun _ => ch) ch' [f] := by
    intro ch'
    by_cases hch : ch' = ch
    · subst hch
      rw [Function.update_self, List.take_add_one, hf, ofKey_singleton_self]
      rfl
    · rw [Function.update_of_ne hch, ofKey_singleton_of_ne (Ne.symm hch), List.append_nil]
  unfold fronts
  simp only [hqueue]
  refine (List.flatMap_append_perm _ _ _).symm.trans ?_
  rw [flatMap_ofKey_singleton nodup_priorityOrder (mem_priorityOrder ch)]
  exact List.perm_append_singleton _ _

/-- Smaller numbers give fewer frames. -/
theorem fronts_sublist (h : ∀ ch, n ch ≤ m ch) : (p.fronts n).Sublist (p.fronts m) :=
  List.Sublist.flatMap_right _ fun ch _ => List.take_sublist_take_left (h ch)

/-- Of two choices that agree on the channels before `ch`, neither has less of `ch`. -/
theorem Admits.not_lt {ch : ChannelId} (hn : p.Admits n) (hm : p.Admits m)
    (heq : ∀ ch', rank ch' < rank ch → n ch' = m ch') : ¬ n ch < m ch := by
  intro hlt
  have hlen := lt_of_lt_of_le hlt (hm.queued ch)
  have hf : (p.queues ch)[n ch]? = some (p.queues ch)[n ch] := List.getElem?_eq_getElem hlen
  generalize (p.queues ch)[n ch] = f at hf
  -- The longer choice holds the next frame of the shorter one, with all that comes before it.
  have hself : upTo ch n ch = n ch := if_pos le_rfl
  have hperm : (p.fronts (Function.update (upTo ch n) ch (n ch + 1))).Perm
      (f :: p.fronts (upTo ch n)) := by
    have hnext := fronts_update_perm (n := upTo ch n) (hself.symm ▸ hf)
    rwa [hself] at hnext
  have hsub : (p.fronts (Function.update (upTo ch n) ch (n ch + 1))).Sublist (p.fronts m) := by
    refine fronts_sublist fun ch' => ?_
    by_cases hch : ch' = ch
    · subst hch
      rwa [Function.update_self]
    · rw [Function.update_of_ne hch]
      unfold upTo
      split
      · next hle =>
        have hne : rank ch' ≠ rank ch := fun h => hch (rank_injective h)
        exact (heq ch' (lt_of_le_of_ne hle hne)).le
      · exact Nat.zero_le _
  have hcost := cost_sublist hsub
  have hslots := slots_sublist hsub
  rw [cost_perm hperm] at hcost
  rw [slots_perm hperm] at hslots
  have hne : p.fronts m ≠ [] := by
    intro hnil
    rw [hnil] at hsub
    exact List.cons_ne_nil _ _ (List.perm_nil.mp (List.sublist_nil.mp hsub ▸ hperm.symm))
  -- So the balance and the datagram cover it, against what stops the shorter one.
  have hpaid := hcost.trans (hm.paid hne)
  have hsize := hslots.trans hm.size
  simp only [cost, slots, List.map_cons, List.sum_cons] at hpaid hsize
  rcases hn.full ch f hf with htokens | hroom
  · simp only [cost] at htokens
    linarith
  · simp only [slots] at hroom
    omega

/-- The state admits one number of frames of each channel. -/
theorem Admits.eq (hn : p.Admits n) (hm : p.Admits m) : n = m := by
  have hrank : ∀ k ch, rank ch = k → n ch = m ch := by
    -- By induction on the place in the priority order.
    intro k
    induction k using Nat.strong_induction_on with
    | _ k ih =>
      rintro ch rfl
      have hbefore : ∀ ch', rank ch' < rank ch → n ch' = m ch' := fun ch' hlt =>
        ih (rank ch') hlt ch' rfl
      have hnm := hn.not_lt hm hbefore
      have hmn := hm.not_lt hn fun ch' hlt => (hbefore ch' hlt).symm
      omega
  funext ch
  exact hrank _ ch rfl

end Pacer

end LowBand.Lbtp
