import Vprogs.Lane.History

/-!
Hash-linked legs against a lane history. A leg moves the lane from one tip to
another, over the activity it hashes or over none. Walking linked legs from the
last to the first, each new tip pins the block that produced it, so the legs
carry exactly the active blocks between their two ends.
-/
namespace Vprogs.Lane

open Abi

namespace LaneHistory

variable {L : SeqCommitLib} {h : LaneHistory} {Q : List HashQuery}

/-- Equal tips have no lane activity between them. -/
theorem activityIn_eq_nil_of_tip_eq (free : L.CollisionFree Q) (hQ : h.queries L ⊆ Q) {i j : Nat}
    (hij : i ≤ j) (hj : j ≤ h.blocks.length)
    (htip : (h.stateAt L i).tip = (h.stateAt L j).tip) : h.activityIn i j = [] := by
  match tip_cases (L := L) hj with
  | .inl hz =>
    have happ := activityIn_append (Nat.zero_le i) hij hj
    rw [hz.2] at happ
    exact (List.append_eq_nil_iff.mp happ.symm).2
  | .inr ⟨k, hk, block, hkb, _, hktip, hnil⟩ =>
    by_cases hki : k < i
    · have happ := activityIn_append (Nat.succ_le_of_lt hki) hij hj
      rw [hnil] at happ
      exact (List.append_eq_nil_iff.mp happ.symm).2
    · exfalso
      have hmem : .laneTip (block.activity.laneTipInput L (h.parentRef (h.stateAt L k) block)
          h.laneKey) ∈ Q := hQ (block_queries_subset hkb List.mem_cons_self)
      match tip_cases (L := L) (Nat.le_trans hij hj) with
      | .inl hz => exact free.ne_zero _ hmem (hktip.symm.trans (htip.symm.trans hz.1))
      | .inr ⟨m, hm, block', hmb, _, hmtip, _⟩ =>
        have hact := (Activity.tip_injective free (fun _ hq => hQ (block_queries_subset hmb hq))
          (fun _ hq => hQ (block_queries_subset hkb hq))
          (hmtip.symm.trans (htip.trans hktip))).2
        have hlt := blueScore_lt hmb hkb (by omega)
        rw [hact] at hlt
        exact absurd hlt (UInt64.lt_irrefl _)

/-- The activity up to a block depends only on the tip it is counted from. -/
theorem activityIn_congr_tip (free : L.CollisionFree Q) (hQ : h.queries L ⊆ Q) {i j b : Nat}
    (hib : i ≤ b) (hjb : j ≤ b) (hb : b ≤ h.blocks.length)
    (htip : (h.stateAt L i).tip = (h.stateAt L j).tip) : h.activityIn i b = h.activityIn j b := by
  match Nat.le_total i j with
  | .inl hij =>
    rw [activityIn_append hij hjb hb,
      activityIn_eq_nil_of_tip_eq free hQ hij (Nat.le_trans hjb hb) htip, List.nil_append]
  | .inr hji =>
    rw [activityIn_append hji hib hb,
      activityIn_eq_nil_of_tip_eq free hQ hji (Nat.le_trans hib hb) htip.symm, List.nil_append]

end LaneHistory

/-! ### Legs of a bundle -/

/-- What one batch contributes to a bundle: the lane tips it moves between, and
the reference and activity hashed into the new tip when it is not empty. -/
structure Leg where
  prevTip : Hash
  newTip : Hash
  step : Option (Hash × Activity)

/-- The guest's side of a leg: an empty batch passes its tip through, any other
hashes its activity on top of its reference. -/
def Leg.Hashed (L : SeqCommitLib) (Q : List HashQuery) (leg : Leg) : Prop :=
  match leg.step with
  | none => leg.newTip = leg.prevTip
  | some (parentRef, act) => ∃ laneKey,
      act.queries L parentRef laneKey ⊆ Q ∧ leg.newTip = act.tip L parentRef laneKey

/-- The leg's reference is its own previous tip, or that tip is the honest one
before the block with the leg's context. -/
def Leg.Grounded (L : SeqCommitLib) (h : LaneHistory) (leg : Leg) : Prop :=
  match leg.step with
  | none => True
  | some (parentRef, act) =>
    parentRef = leg.prevTip ∨
      ∀ i block, h.blocks[i]? = some block → block.laneActivity.isSome →
        block.activity.context = act.context → leg.prevTip = (h.stateAt L i).tip

def Leg.activity (leg : Leg) : Option Activity := leg.step.map (·.2)

/-- A tip that no sequencing commitment can equal. -/
def IsLaneTip (L : SeqCommitLib) (Q : List HashQuery) (tip : Hash) : Prop :=
  tip = zeroHash ∨ ∃ input, .laneTip input ∈ Q ∧ tip = L.hash (.laneTip input)

section Legs

variable {L : SeqCommitLib} {h : LaneHistory} {Q : List HashQuery}

theorem IsLaneTip.ne_seqCommit (free : L.CollisionFree Q) (hQ : h.queries L ⊆ Q) {tip : Hash}
    (ht : IsLaneTip L Q tip) (i : Nat) : tip ≠ (h.stateAt L i).seqCommit := by
  have ⟨q, hq, hcommit, parent, root, hform⟩ := LaneHistory.seqCommit_mem_queries (h := h) (L := L) i
  rw [hcommit]
  match ht with
  | .inl hz =>
    intro heq
    exact free.ne_zero q (hQ hq) (heq.symm.trans hz)
  | .inr ⟨input, hin, hhash⟩ =>
    intro heq
    have hqq := free.injective _ hin _ (hQ hq) (hhash.symm.trans heq)
    rw [hform] at hqq
    cases hqq

theorem isLaneTip_stateAt (hQ : h.queries L ⊆ Q) {i : Nat} (hi : i ≤ h.blocks.length) :
    IsLaneTip L Q (h.stateAt L i).tip := by
  match LaneHistory.tip_cases (L := L) hi with
  | .inl hz => exact Or.inl hz.1
  | .inr ⟨j, _, block, hjb, _, htip, _⟩ =>
    exact Or.inr ⟨_, hQ (LaneHistory.block_queries_subset hjb List.mem_cons_self), htip⟩

theorem Leg.Hashed.isLaneTip {leg : Leg} (hashed : leg.Hashed L Q)
    (hprev : IsLaneTip L Q leg.prevTip) : IsLaneTip L Q leg.newTip := by
  unfold Leg.Hashed at hashed
  split at hashed
  · rw [hashed]
    exact hprev
  · have ⟨laneKey, hsub, htip⟩ := hashed
    exact Or.inr ⟨_, hsub List.mem_cons_self, htip⟩

/-- One leg back: a leg that ends on an honest tip starts on an honest tip, and
carries exactly the activity in between. -/
theorem Leg.back (free : L.CollisionFree Q) (hQ : h.queries L ⊆ Q) {leg : Leg} (hashed : leg.Hashed L Q)
    (grounded : leg.Grounded L h) (hprev : IsLaneTip L Q leg.prevTip) {i : Nat} (hi : i ≤ h.blocks.length)
    (hnew : leg.newTip = (h.stateAt L i).tip) :
    ∃ j ≤ i, leg.prevTip = (h.stateAt L j).tip ∧ leg.activity.toList = h.activityIn j i := by
  cases hstep : leg.step with
  | none =>
    simp only [Leg.Hashed, hstep] at hashed
    refine ⟨i, Nat.le_refl i, hashed.symm.trans hnew, ?_⟩
    rw [LaneHistory.activityIn_self, Leg.activity, hstep]
    rfl
  | some step =>
    have ⟨parentRef, act⟩ := step
    simp only [Leg.Hashed, hstep] at hashed
    simp only [Leg.Grounded, hstep] at grounded
    have ⟨laneKey, hsub, htip⟩ := hashed
    match LaneHistory.tip_cases (L := L) hi with
    | .inl hz => exact absurd (htip.symm.trans (hnew.trans hz.1)) (free.ne_zero _ (hsub List.mem_cons_self))
    | .inr ⟨j, hj, block, hjb, hlane, hbtip, hnil⟩ =>
      have ⟨href, hact⟩ := Activity.tip_injective free hsub
        (fun _ hq => hQ (LaneHistory.block_queries_subset hjb hq))
        (htip.symm.trans (hnew.trans hbtip))
      have htipj : leg.prevTip = (h.stateAt L j).tip := by
        match grounded with
        | .inr honest => exact honest j block hjb (by simp [hlane]) (by rw [hact])
        | .inl hown =>
          -- A reference that is a commitment cannot be a lane tip.
          rw [hown] at href
          unfold LaneHistory.parentRef at href
          split at href
          · exact absurd href (hprev.ne_seqCommit free hQ j)
          · exact href
      refine ⟨j, Nat.le_of_lt hj, htipj, ?_⟩
      rw [LaneHistory.activityIn_append (Nat.le_succ j) hj hi, hnil, List.append_nil,
        LaneHistory.activityIn_succ (Nat.le_refl j) hjb, LaneHistory.activityIn_self, hlane,
        Leg.activity, hstep, ← hact]
      rfl

/-- Every leg starts on the tip its predecessor left. -/
def Linked (legs : List Leg) : Prop := legs.IsChain fun prev this => this.prevTip = prev.newTip

/-- All the way back: linked legs that end on an honest tip carry exactly the
activity since the honest tip they start from. -/
theorem legs_back (free : L.CollisionFree Q) (hQ : h.queries L ⊆ Q) {legs : List Leg} {leg : Leg}
    (linked : Linked (leg :: legs)) (hashed : ∀ l ∈ leg :: legs, l.Hashed L Q)
    (grounded : ∀ l ∈ leg :: legs, l.Grounded L h) (hprev : IsLaneTip L Q leg.prevTip)
    {i : Nat} (hi : i ≤ h.blocks.length)
    (hnew : ((leg :: legs).getLast (List.cons_ne_nil _ _)).newTip = (h.stateAt L i).tip) :
    ∃ j ≤ i, leg.prevTip = (h.stateAt L j).tip ∧
      (leg :: legs).filterMap Leg.activity = h.activityIn j i := by
  induction legs generalizing leg with
  | nil =>
    have ⟨j, hj, htip, hact⟩ := leg.back free hQ (hashed leg List.mem_cons_self)
      (grounded leg List.mem_cons_self) hprev hi hnew
    refine ⟨j, hj, htip, ?_⟩
    rw [← hact]
    cases ha : leg.activity <;> simp [ha]
  | cons leg' legs ih =>
    have hlink := List.isChain_cons_cons.mp linked
    have hmid := (hashed leg List.mem_cons_self).isLaneTip hprev
    have ⟨k, hk, htip', hact'⟩ := ih hlink.2 (fun l hl => hashed l (List.mem_cons_of_mem _ hl))
      (fun l hl => grounded l (List.mem_cons_of_mem _ hl)) (hlink.1 ▸ hmid)
      (by rwa [List.getLast_cons (List.cons_ne_nil _ _)] at hnew)
    have ⟨j, hj, htip, hact⟩ := leg.back free hQ (hashed leg List.mem_cons_self)
      (grounded leg List.mem_cons_self) hprev (Nat.le_trans hk hi) (hlink.1.symm.trans htip')
    refine ⟨j, Nat.le_trans hj hk, htip, ?_⟩
    rw [LaneHistory.activityIn_append hj hk hi, ← hact, ← hact']
    cases ha : leg.activity <;> simp [ha]

end Legs

end Vprogs.Lane
