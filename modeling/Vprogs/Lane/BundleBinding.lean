import Vprogs.Lane.Legs
import Vprogs.Lane.GuestSpec

/-!
A bundle against the lane history it settles. Its batches are legs, and they
are linked as far as the guests check: a batch that claims the lane had expired
may start from any tip and restart the lane from any reference. The binding
therefore holds under a condition on exactly those batches, and a bundle that
violates it can leave out a block.
-/
namespace Vprogs.Lane

open Abi

/-- The bundle's journals are those the batch guest committed on these inputs. -/
def Committed (H : Smt.Hasher Hash) (L : SeqCommitLib) (verifyTxJournal : Hash → Bytes → Bool)
    (batches : List BatchProcessor.Inputs) (bundle : BatchAggregator.Inputs) : Prop :=
  List.Forall₂ (fun inputs journal => ∃ bytes,
    BatchProcessor.main H L verifyTxJournal inputs = .ok bytes ∧ journal = .ok bytes)
    batches bundle.batchJournals.iter

/-- The activity of the non-empty batches, in order. -/
def bundleActivity (batches : List BatchProcessor.Inputs) : List Activity :=
  batches.filterMap fun inputs =>
    if inputs.batch.txJournals.isEmpty then none else some inputs.batch.activity

/-- The link the aggregator drops: a batch that claims expiry still starts from
the tip its predecessor left. -/
def ContinuesTips (ts : List BatchProcessor.BatchTransition) : Prop :=
  ts.IsChain fun prev this => this.laneExpired ≠ 0 → this.prevLaneTip = prev.newLaneTip

/-- A non-empty batch that claims expiry names the honest tip before the block
with its context. -/
def ClaimsHonestTip (L : SeqCommitLib) (h : LaneHistory) (inputs : BatchProcessor.Inputs) : Prop :=
  inputs.batch.laneExpired = true → inputs.batch.txJournals.isEmpty = false →
    ∀ i block, h.blocks[i]? = some block → block.laneActivity.isSome →
      block.activity.context = inputs.batch.activity.context →
      inputs.batch.prevLaneTip = (h.stateAt L i).tip

/-- All hashes of the chain and of the guest runs behind a bundle. -/
def allQueries (L : SeqCommitLib) (h : LaneHistory) (batches : List BatchProcessor.Inputs)
    (bundle : BatchAggregator.Inputs) : List HashQuery :=
  h.queries L ++ batches.flatMap (·.queries L) ++ bundle.queries L

def legOf (L : SeqCommitLib) (inputs : BatchProcessor.Inputs) : Leg where
  prevTip := inputs.batch.prevLaneTip
  newTip := if inputs.batch.txJournals.isEmpty then inputs.batch.prevLaneTip
    else inputs.batch.activity.tip L inputs.batch.parentRef inputs.laneKey
  step := if inputs.batch.txJournals.isEmpty then none
    else some (inputs.batch.parentRef, inputs.batch.activity)

section Bundles

variable {H : Smt.Hasher Hash} {L : SeqCommitLib} {h : LaneHistory}
  {verifyTxJournal : Hash → Bytes → Bool}

theorem legOf_activity (batches : List BatchProcessor.Inputs) :
    (batches.map (legOf L)).filterMap Leg.activity = bundleActivity batches := by
  rw [List.filterMap_map, bundleActivity]
  apply List.filterMap_congr
  intro inputs _
  simp only [Function.comp, Leg.activity, legOf]
  split <;> rfl

theorem legOf_hashed {inputs : BatchProcessor.Inputs} {Q : List HashQuery}
    (hsub : inputs.queries L ⊆ Q) : (legOf L inputs).Hashed L Q := by
  unfold BatchProcessor.Inputs.queries at hsub
  by_cases hempty : inputs.batch.txJournals.isEmpty
  · simp only [Leg.Hashed, legOf, if_pos hempty]
  · rw [if_neg hempty] at hsub
    simp only [Leg.Hashed, legOf, if_neg hempty]
    exact ⟨inputs.laneKey, hsub, rfl⟩

theorem legOf_grounded {inputs : BatchProcessor.Inputs} (hclaim : ClaimsHonestTip L h inputs) :
    (legOf L inputs).Grounded L h := by
  by_cases hempty : inputs.batch.txJournals.isEmpty
  · simp only [Leg.Grounded, legOf, if_pos hempty]
  · simp only [Leg.Grounded, legOf, if_neg hempty]
    cases hexp : inputs.batch.laneExpired with
    | false => exact Or.inl (by rw [BatchProcessor.Batch.parentRef, hexp]; rfl)
    | true => exact Or.inr (hclaim hexp (by simpa using hempty))

/-- The committed transitions move between the tips of the batches' legs. -/
theorem transitions_match {batches : List BatchProcessor.Inputs} {journals : List (Result Bytes)}
    {ts : List BatchProcessor.BatchTransition}
    (committed : List.Forall₂ (fun inputs journal => ∃ bytes,
      BatchProcessor.main H L verifyTxJournal inputs = .ok bytes ∧ journal = .ok bytes)
      batches journals)
    (hts : journals.map BatchAggregator.transitionOf = ts.map some) :
    ts.map (fun t => (t.prevLaneTip, t.newLaneTip)) =
      (batches.map (legOf L)).map fun leg => (leg.prevTip, leg.newTip) := by
  induction committed generalizing ts with
  | nil =>
    cases ts with
    | nil => rfl
    | cons t ts => cases hts
  | cons hmain _ ih =>
    cases ts with
    | nil => cases hts
    | cons t ts =>
      have ⟨bytes, hrun, hj⟩ := hmain
      have ⟨t', hread, hprev, _, hnew⟩ := BatchProcessor.main_eq_ok hrun
      simp only [List.map_cons, List.cons.injEq] at hts ⊢
      rw [hj, BatchAggregator.transitionOf, hread] at hts
      cases hts.1
      exact ⟨Prod.ext hprev hnew, ih hts.2⟩

theorem linked_iff_map {legs : List Leg} : Linked legs ↔
    (legs.map fun leg => (leg.prevTip, leg.newTip)).IsChain fun prev this => this.1 = prev.2 := by
  rw [List.isChain_map]
  rfl

/-- The aggregator's own link check covers the batches that do not claim expiry. -/
theorem linked_of_checked {t : BatchProcessor.BatchTransition} {ts : List BatchProcessor.BatchTransition}
    (checked : (t :: ts).IsChain fun prev this => BatchAggregator.checkLink prev this = .ok ())
    (continues : ContinuesTips (t :: ts)) :
    (t :: ts).IsChain fun prev this => this.prevLaneTip = prev.newLaneTip := by
  induction ts generalizing t with
  | nil => exact List.isChain_singleton t
  | cons t' ts ih =>
    have hc := List.isChain_cons_cons.mp checked
    have hk := List.isChain_cons_cons.mp continues
    refine List.isChain_cons_cons.mpr ⟨?_, ih hc.2 hk.2⟩
    by_cases hz : t'.laneExpired = 0
    · exact BatchAggregator.checkLink_eq_ok hc.1 hz
    · exact hk.1 hz

theorem transitions_eq {bundle : BatchAggregator.Inputs} {ts : List BatchProcessor.BatchTransition}
    (hts : bundle.batchJournals.iter.map BatchAggregator.transitionOf = ts.map some) :
    bundle.transitions = ts := by
  have h := congrArg (List.filterMap id) hts
  rw [List.filterMap_map, List.filterMap_map] at h
  exact h.trans List.filterMap_some

theorem getLast_of_map_eq {α β γ : Type} {f : α → γ} {g : β → γ} {xs : List α} {ys : List β}
    (hx : xs ≠ []) (hy : ys ≠ []) (h : xs.map f = ys.map g) : f (xs.getLast hx) = g (ys.getLast hy) := by
  have hfx : f (xs.getLast hx) = (xs.map f).getLast (by simpa using hx) := by simp
  have hgy : g (ys.getLast hy) = (ys.map g).getLast (by simpa using hy) := by simp
  rw [hfx, hgy]
  simp only [h]

/-- A bundle that settles from an honest tip to a later honest tip carries
exactly the lane activity in between, provided its batches that claim expiry
continue the lane. -/
theorem bundle_binds_lane_activity {verifyBatchJournal : Hash → Bytes → Bool}
    {acc : BatchAggregator.ExitAccumulator} {batches : List BatchProcessor.Inputs}
    {bundle : BatchAggregator.Inputs} {st : BatchAggregator.StateTransition} {a b : Nat}
    (free : L.CollisionFree (allQueries L h batches bundle))
    (committed : Committed H L verifyTxJournal batches bundle)
    (accepted : BatchAggregator.main L verifyBatchJournal acc bundle = .ok st)
    (hab : a ≤ b) (hb : b ≤ h.blocks.length)
    (hprev : st.prevLaneTip = (h.stateAt L a).tip)
    (hnew : st.newLaneTip = (h.stateAt L b).tip)
    (continues : ContinuesTips bundle.transitions)
    (claims : ∀ inputs ∈ batches, ClaimsHonestTip L h inputs) :
    bundleActivity batches = h.activityIn a b := by
  have hQ : h.queries L ⊆ allQueries L h batches bundle := by
    intro q hq
    simp [allQueries, hq]
  have hQ' : ∀ inputs ∈ batches, inputs.queries L ⊆ allQueries L h batches bundle := by
    intro inputs hin q hq
    have hmem : q ∈ batches.flatMap (·.queries L) := List.mem_flatMap.mpr ⟨inputs, hin, hq⟩
    simp only [allQueries, List.mem_append]
    exact Or.inl (Or.inr hmem)
  have ⟨first, ts, hts, hchain, hfirst, hlast⟩ := BatchAggregator.main_eq_ok accepted
  rw [transitions_eq hts] at continues
  have hmatch := transitions_match committed hts
  cases batches with
  | nil => cases hmatch
  | cons inputs rest =>
    have hlinked : Linked ((inputs :: rest).map (legOf L)) := by
      rw [linked_iff_map, ← hmatch, List.isChain_map]
      exact linked_of_checked hchain continues
    have hashed : ∀ leg ∈ (inputs :: rest).map (legOf L),
        leg.Hashed L (allQueries L h (inputs :: rest) bundle) := by
      intro leg hleg
      have ⟨i, hi, he⟩ := List.mem_map.mp hleg
      exact he ▸ legOf_hashed (hQ' i hi)
    have grounded : ∀ leg ∈ (inputs :: rest).map (legOf L), leg.Grounded L h := by
      intro leg hleg
      have ⟨i, hi, he⟩ := List.mem_map.mp hleg
      exact he ▸ legOf_grounded (claims i hi)
    have hends : (((inputs :: rest).map (legOf L)).getLast (by simp)).newTip =
        (h.stateAt L b).tip := by
      rw [← hnew, hlast]
      exact (congrArg Prod.snd (getLast_of_map_eq (List.cons_ne_nil _ _) (by simp) hmatch)).symm
    have hstart : (legOf L inputs).prevTip = (h.stateAt L a).tip := by
      rw [← hprev, hfirst]
      simp only [List.map_cons, List.cons.injEq, Prod.mk.injEq] at hmatch
      exact hmatch.1.1.symm
    have hlane := isLaneTip_stateAt hQ (Nat.le_trans hab hb)
    have ⟨j, hj, htip, hact⟩ :=
      legs_back free hQ hlinked hashed grounded (hstart ▸ hlane) hb hends
    rw [← legOf_activity (L := L), List.map_cons, hact]
    exact LaneHistory.activityIn_congr_tip free hQ hj hab hb (htip.symm.trans hstart)

end Bundles

/-! ### A bundle that skips a block -/

namespace Sample

/-- A small mixing function, standing for the chain's hashes. -/
def mix (xs : List Nat) : Hash :=
  ⟨leBytes 32 (xs.foldl (fun acc x => (acc * 1000003 + x * 65599 + 1) % 2 ^ 255) 1), by simp⟩

def num (hash : Hash) : Nat := leNat hash.val

def hash : HashQuery → Hash
  | .mergesetContext ctx => mix [1, ctx.timestamp.toNat, ctx.daaScore.toNat, ctx.blueScore.toNat]
  | .activityLeaf txId version mergeIdx => mix [2, num txId, version.toNat, mergeIdx.toNat]
  | .activityDigest leaves => mix (3 :: leaves.map num)
  | .laneTip input => mix [4, num input.parentRef, num input.laneKey, num input.activityDigest,
      num input.contextHash]
  | .smtLeaf laneTip blueScore => mix [5, num laneTip, blueScore.toNat]
  | .activityRoot shortcut root => mix [6, num shortcut, num root]
  | .seqStateRoot root digest => mix [7, num root, num digest]
  | .seqCommit parent root => mix [8, num parent, num root]

def lib : SeqCommitLib := ⟨hash, fun _ _ leaf => leaf⟩

def nodeHasher : Smt.Hasher Hash := ⟨zeroHash, fun _ _ => zeroHash⟩

/-- The activity of the `k`-th block: one transaction of an unsupported version. -/
def activity (k : Nat) (blueScore : UInt64) : Activity where
  context := ⟨UInt64.ofNat k, UInt64.ofNat k, blueScore⟩
  txs := [⟨mix [9, k], 0, 0⟩]

/-- A block whose commitment holds the lane's leaf for the given tip. -/
def block (k : Nat) (blueScore : UInt64) (tip : Hash) : ChainBlock where
  activity := activity k blueScore
  stateRoot := lib.seqStateRoot
    (lib.activityRootHash zeroHash (lib.smtLeafHash tip blueScore)) zeroHash

def tip1 : Hash := (activity 1 10).tip lib zeroHash zeroHash
def tip2 : Hash := (activity 2 20).tip lib tip1 zeroHash

/-- Two active blocks in a row, well within the finality depth. -/
def history : LaneHistory where
  laneKey := zeroHash
  finalityDepth := 100
  baseParent := zeroHash
  baseStateRoot := zeroHash
  blocks := [block 1 10 tip1, block 2 20 tip2]
  ascending := by decide

/-- The journal of the `k`-th block's transaction. -/
def txJournal (k : Nat) : Bytes :=
  InputCommitment.encode (fun _ => zeroHash) ⟨0, mix [9, k], 0, none⟩ ++
    OutputCommitment.encode (fun _ => zeroHash) (.error ErrorCode.versionIncompatible.toError)

def verifyTxJournal (_ : Hash) (journal : Bytes) : Bool :=
  journal == txJournal 1 || journal == txJournal 2

def inputs (k : Nat) (blueScore : UInt64) (prevSeqCommit prevLaneTip : Hash)
    (prevLaneBlueScore : UInt64) (laneExpired : Bool) : BatchProcessor.Inputs where
  txImageId := zeroHash
  covenantId := zeroHash
  depositSpkHash := zeroHash
  laneKey := zeroHash
  proof := ⟨[], [], [], [], []⟩
  batch :=
    { blueScore := blueScore
      daaScore := UInt64.ofNat k
      prevTimestamp := UInt64.ofNat k
      prevSeqCommit := prevSeqCommit
      prevLaneTip := prevLaneTip
      prevLaneBlueScore := prevLaneBlueScore
      laneExpired := laneExpired
      txJournals := writeBlob (txJournal k) }

def journal (inputs : BatchProcessor.Inputs) : Bytes :=
  (BatchProcessor.main nodeHasher lib verifyTxJournal inputs).toOption.getD []

def bundle (h : LaneHistory) (batches : List BatchProcessor.Inputs) : BatchAggregator.Inputs where
  batchImageId := zeroHash
  laneProof := ⟨zeroHash, (h.stateAt lib 1).seqCommit, zeroHash, ⟨zeroHash, .full, []⟩⟩
  batchJournals := batches.flatMap fun inputs => writeBlob (journal inputs)

/-- The second block's batch, claiming expiry: it names the first block's tip as
the commitment to restart from and the tip before the first block as its own. -/
def skip : BatchProcessor.Inputs := inputs 2 20 tip1 zeroHash 0 true

theorem committed_of_journal {h : LaneHistory} {batches : List BatchProcessor.Inputs}
    (hrun : ∀ i ∈ batches, BatchProcessor.main nodeHasher lib verifyTxJournal i = .ok (journal i))
    (hiter : (bundle h batches).batchJournals.iter = batches.map fun i => .ok (journal i)) :
    Committed nodeHasher lib verifyTxJournal batches (bundle h batches) := by
  rw [Committed, hiter, List.forall₂_map_right_iff, List.forall₂_same]
  exact fun i hi => ⟨journal i, hrun i hi, rfl⟩

/-- The statement the bundle settles with. -/
def settled (newTip newSeqCommit : Hash) : BatchAggregator.StateTransition :=
  ⟨zeroHash, zeroHash, zeroHash, newTip, newSeqCommit, zeroHash, zeroHash, zeroHash, zeroHash,
    zeroHash, zeroHash⟩

set_option maxRecDepth 10000 in
/-- Nothing collides, every journal is a committed one and both ends are honest,
yet the first block's transaction is missing from the bundle. -/
theorem expiryClaim_skips_block :
    lib.CollisionFree (allQueries lib history [skip] (bundle history [skip])) ∧
      Committed nodeHasher lib verifyTxJournal [skip] (bundle history [skip]) ∧
      (∃ st, BatchAggregator.main lib (fun _ j => j == journal skip) BatchAggregator.noExits
          (bundle history [skip]) = .ok st ∧
        st.prevLaneTip = (history.stateAt lib 0).tip ∧
        st.newLaneTip = (history.stateAt lib 2).tip ∧
        st.newSeqCommit = (history.stateAt lib 2).seqCommit) ∧
      bundleActivity [skip] ≠ history.activityIn 0 2 := by
  refine ⟨⟨by decide +kernel, by decide +kernel⟩,
    committed_of_journal (by decide +kernel) (by decide +kernel), ?_, by decide +kernel⟩
  exact ⟨settled tip2 (history.stateAt lib 2).seqCommit, by decide +kernel, by decide +kernel,
    by decide +kernel, rfl⟩

def commit1 : Hash := lib.seqCommit (lib.seqCommit zeroHash zeroHash) (block 1 10 tip1).stateRoot

/-- A history whose second block restarts the lane. -/
def silentHistory : LaneHistory where
  laneKey := zeroHash
  finalityDepth := 15
  baseParent := zeroHash
  baseStateRoot := zeroHash
  blocks := [block 1 10 tip1, block 2 30 ((activity 2 30).tip lib commit1 zeroHash)]
  ascending := by decide

def restart : List BatchProcessor.Inputs :=
  [inputs 1 10 zeroHash zeroHash 0 false,
    inputs 2 30 commit1 tip1 10 true]

theorem restart_claims : ∀ i ∈ restart, ClaimsHonestTip lib silentHistory i := by
  intro inputs hin hexp _ i blk hb _ hctx
  simp only [restart, List.mem_cons, List.not_mem_nil, or_false] at hin
  match hin with
  | .inl h => subst h; cases hexp
  | .inr h =>
    subst h
    match i with
    | 0 => cases hb; revert hctx; decide
    | 1 => exact (by decide +kernel : tip1 = (silentHistory.stateAt lib 1).tip)
    | _ + 2 => simp [silentHistory] at hb

set_option maxRecDepth 10000 in
/-- An honest restart is bound: both blocks' activity is in the bundle. -/
theorem restart_binds :
    bundleActivity restart = silentHistory.activityIn 0 2 ∧ (bundleActivity restart).length = 2 := by
  have accepted : BatchAggregator.main lib (fun _ j => restart.any fun i => j == journal i)
      BatchAggregator.noExits (bundle silentHistory restart) =
      .ok (settled (silentHistory.stateAt lib 2).tip (silentHistory.stateAt lib 2).seqCommit) := by
    decide +kernel
  refine ⟨?_, by decide +kernel⟩
  exact bundle_binds_lane_activity ⟨by decide +kernel, by decide +kernel⟩
    (committed_of_journal (by decide +kernel) (by decide +kernel)) accepted (by decide) (by decide)
    (by decide +kernel) (by decide +kernel) (by unfold ContinuesTips; decide +kernel) restart_claims

end Sample

end Vprogs.Lane
