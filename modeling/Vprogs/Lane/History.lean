import Vprogs.Lane.SeqCommit

/-!
An honest lane history on the base chain: a sequence of chain blocks, the lane
tip folded over the active ones, and the facts that tie a lane tip back to the
block it was produced by. Nothing here depends on the guests.
-/
namespace Vprogs.Lane

open Abi

structure ChainBlock where
  activity : Activity
  stateRoot : Hash
  deriving DecidableEq

/-- A block's contribution to the lane, if it accepted any lane transaction. -/
def ChainBlock.laneActivity (block : ChainBlock) : Option Activity :=
  if block.activity.txs.isEmpty then none else some block.activity

structure LaneState where
  tip : Hash
  blueScore : UInt64
  seqCommit : Hash
  deriving DecidableEq

/-- A lane history. The commitment before the first block is itself one of the
chain's commitments, and blue scores grow along the chain. -/
structure LaneHistory where
  laneKey : Hash
  finalityDepth : Nat
  baseParent : Hash
  baseStateRoot : Hash
  blocks : List ChainBlock
  ascending : blocks.Pairwise fun a b => a.activity.context.blueScore < b.activity.context.blueScore

namespace LaneHistory

variable (L : SeqCommitLib) (h : LaneHistory)

/-- The lane was silent for more than the finality depth. -/
def expired (s : LaneState) (block : ChainBlock) : Bool :=
  decide (h.finalityDepth < block.activity.context.blueScore.toNat - s.blueScore.toNat)

def parentRef (s : LaneState) (block : ChainBlock) : Hash :=
  if h.expired s block then s.seqCommit else s.tip

def next (s : LaneState) (block : ChainBlock) : LaneState :=
  let seqCommit := L.seqCommit s.seqCommit block.stateRoot
  if block.activity.txs.isEmpty then { s with seqCommit := seqCommit }
  else
    { tip := block.activity.tip L (h.parentRef s block) h.laneKey
      blueScore := block.activity.context.blueScore
      seqCommit := seqCommit }

def start : LaneState := ⟨zeroHash, 0, L.seqCommit h.baseParent h.baseStateRoot⟩

/-- The lane state after the first `i` blocks. -/
def stateAt : Nat → LaneState
  | 0 => h.start L
  | i + 1 =>
    match h.blocks[i]? with
    | some block => h.next L (stateAt i) block
    | none => stateAt i

/-- Lane activity of the blocks after the first `a` up to the first `b`. -/
def activityIn (a b : Nat) : List Activity :=
  ((h.blocks.take b).drop a).filterMap ChainBlock.laneActivity

/-- Every hash the chain computes for the lane. -/
def queries : List HashQuery :=
  .seqCommit h.baseParent h.baseStateRoot ::
    (List.range h.blocks.length).flatMap fun i =>
      match h.blocks[i]? with
      | some block =>
        .seqCommit (h.stateAt L i).seqCommit block.stateRoot ::
          block.activity.queries L (h.parentRef (h.stateAt L i) block) h.laneKey
      | none => []

variable {L h}

theorem stateAt_succ {i : Nat} {block : ChainBlock} (hb : h.blocks[i]? = some block) :
    h.stateAt L (i + 1) = h.next L (h.stateAt L i) block := by
  rw [stateAt, hb]

theorem activityIn_self (a : Nat) : h.activityIn a a = [] := by
  have hnil : (h.blocks.take a).drop a = [] := by
    rw [List.drop_eq_nil_iff, List.length_take]
    omega
  rw [activityIn, hnil, List.filterMap_nil]

theorem activityIn_succ {a i : Nat} {block : ChainBlock} (hai : a ≤ i) (hb : h.blocks[i]? = some block) :
    h.activityIn a (i + 1) = h.activityIn a i ++ block.laneActivity.toList := by
  have hi : i < h.blocks.length := by
    rw [List.getElem?_eq_some_iff] at hb
    exact hb.1
  have htake : h.blocks.take (i + 1) = h.blocks.take i ++ [block] := by
    rw [List.take_add_one, hb]
    rfl
  have hlen : a ≤ (h.blocks.take i).length := by
    rw [List.length_take]
    omega
  rw [activityIn, htake, List.drop_append_of_le_length hlen, List.filterMap_append, ← activityIn]
  cases hl : block.laneActivity <;> simp [hl]

theorem activityIn_append {a i : Nat} (hai : a ≤ i) {b : Nat} (hib : i ≤ b)
    (hb : b ≤ h.blocks.length) : h.activityIn a b = h.activityIn a i ++ h.activityIn i b := by
  induction b, hib using Nat.le_induction with
  | base => rw [activityIn_self, List.append_nil]
  | succ b hib ih =>
    have hget : h.blocks[b]? = some h.blocks[b] := List.getElem?_eq_getElem hb
    rw [activityIn_succ (Nat.le_trans hai hib) hget, activityIn_succ hib hget, ih (by omega),
      List.append_assoc]

theorem blueScore_lt {i j : Nat} {block block' : ChainBlock} (hi : h.blocks[i]? = some block)
    (hj : h.blocks[j]? = some block') (hij : i < j) :
    block.activity.context.blueScore < block'.activity.context.blueScore := by
  rw [List.getElem?_eq_some_iff] at hi hj
  have ⟨hi', heq⟩ := hi
  have ⟨hj', heq'⟩ := hj
  rw [← heq, ← heq']
  exact List.pairwise_iff_getElem.mp h.ascending i j hi' hj' hij

/-! ### Where the chain's hashes come from -/

theorem block_queries_subset {i : Nat} {block : ChainBlock} (hb : h.blocks[i]? = some block) :
    block.activity.queries L (h.parentRef (h.stateAt L i) block) h.laneKey ⊆ h.queries L := by
  have hi : i < h.blocks.length := by
    rw [List.getElem?_eq_some_iff] at hb
    exact hb.1
  intro q hq
  refine List.mem_cons_of_mem _ (List.mem_flatMap.mpr ⟨i, List.mem_range.mpr hi, ?_⟩)
  rw [hb]
  exact List.mem_cons_of_mem _ hq

theorem seqCommit_mem_queries (i : Nat) :
    ∃ q ∈ h.queries L, (h.stateAt L i).seqCommit = L.hash q ∧
      ∃ parent root, q = .seqCommit parent root := by
  induction i with
  | zero => exact ⟨_, List.mem_cons_self, rfl, _, _, rfl⟩
  | succ i ih =>
    cases hb : h.blocks[i]? with
    | none => rw [stateAt, hb]; exact ih
    | some block =>
      have hi : i < h.blocks.length := by
        rw [List.getElem?_eq_some_iff] at hb
        exact hb.1
      refine ⟨.seqCommit (h.stateAt L i).seqCommit block.stateRoot, ?_, ?_, _, _, rfl⟩
      · refine List.mem_cons_of_mem _ (List.mem_flatMap.mpr ⟨i, List.mem_range.mpr hi, ?_⟩)
        rw [hb]
        exact List.mem_cons_self
      · rw [stateAt_succ hb, next]
        split <;> rfl

/-- A tip is the initial one, or it was produced by the last active block. -/
theorem tip_cases {i : Nat} (hi : i ≤ h.blocks.length) :
    ((h.stateAt L i).tip = zeroHash ∧ h.activityIn 0 i = []) ∨
      ∃ j < i, ∃ block, h.blocks[j]? = some block ∧ block.laneActivity = some block.activity ∧
        (h.stateAt L i).tip =
          block.activity.tip L (h.parentRef (h.stateAt L j) block) h.laneKey ∧
        h.activityIn (j + 1) i = [] := by
  induction i with
  | zero => exact Or.inl ⟨rfl, activityIn_self 0⟩
  | succ i ih =>
    have hb : h.blocks[i]? = some h.blocks[i] := List.getElem?_eq_getElem hi
    by_cases hempty : (h.blocks[i]).activity.txs.isEmpty
    · have hlane : (h.blocks[i]).laneActivity = none := by simp [ChainBlock.laneActivity, hempty]
      have htip : (h.stateAt L (i + 1)).tip = (h.stateAt L i).tip := by
        rw [stateAt_succ hb, next, if_pos hempty]
      have hact : ∀ a ≤ i, h.activityIn a (i + 1) = h.activityIn a i := by
        intro a ha
        rw [activityIn_succ ha hb, hlane]
        exact List.append_nil _
      rw [htip]
      match ih (by omega) with
      | .inl hz => exact Or.inl ⟨hz.1, (hact 0 (by omega)).trans hz.2⟩
      | .inr ⟨j, hj, block, hjb, hact', htip', hnil⟩ =>
        exact Or.inr ⟨j, by omega, block, hjb, hact', htip', (hact (j + 1) hj).trans hnil⟩
    · refine Or.inr ⟨i, by omega, h.blocks[i], hb, ?_, ?_, activityIn_self (i + 1)⟩
      · simp [ChainBlock.laneActivity, hempty]
      · rw [stateAt_succ hb, next, if_neg hempty]

end LaneHistory

end Vprogs.Lane
