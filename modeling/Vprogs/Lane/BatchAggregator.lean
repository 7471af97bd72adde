import Vprogs.Lane.BatchProcessor

/-!
The batch-aggregator guest. It chains the journals of consecutive batches into
one bundle and commits to the state and lane tips at both ends together with
the sequencing commitment the last tip belongs to.
-/
namespace Vprogs.Lane.BatchAggregator

open Abi BatchProcessor

/-- Parts of the chain's commitment that surround the lane's leaf. -/
structure LaneProof where
  payloadAndCtxDigest : Hash
  prevSeqCommit : Hash
  inactivityShortcut : Hash
  laneSmtProof : SmtProof
  deriving DecidableEq

structure Inputs where
  batchImageId : Hash
  laneProof : LaneProof
  batchJournals : Journals
  deriving DecidableEq

/-- The exit commitment under construction. -/
structure ExitAccumulator where
  State : Type
  init : State
  addExit : State → StandardSpk → UInt64 → Guest State
  finalize : State → Guest Hash

/-- An accumulator that commits to no exits. -/
def noExits : ExitAccumulator where
  State := Unit
  init := ()
  addExit := fun s _ _ => .ok s
  finalize := fun _ => .ok zeroHash

structure StateTransition where
  prevState : Hash
  prevLaneTip : Hash
  newState : Hash
  newLaneTip : Hash
  newSeqCommit : Hash
  covenantId : Hash
  txImageId : Hash
  batchImageId : Hash
  permissionSpkHash : Hash
  depositSpkHash : Hash
  laneKey : Hash
  deriving DecidableEq

section

variable (verifyBatchJournal : Hash → Bytes → Bool)

def verifiedJournal (imageId : Hash) (bytes : Bytes) : Guest BatchTransition := do
  check (verifyBatchJournal imageId bytes) "verify batch journal"
  expectOk (BatchTransition.refFromBytes bytes) "decode BatchTransition"

end

def streamExits (acc : ExitAccumulator) (exits : acc.State) :
    List (Result Exit) → Guest acc.State
  | [] => .ok exits
  | exit :: rest => do
      let e ← expectOk exit "decode exit entry"
      let exits ← acc.addExit exits e.dest e.amount
      streamExits acc exits rest

/-- The state folded over the batches: the last batch seen, the exit
accumulator and the carried deposit address. -/
structure Folded (acc : ExitAccumulator) where
  last : BatchTransition
  exits : acc.State
  depositSpkHash : Hash

/-- Each batch must be consistent with its predecessor. -/
def checkLink (prev this : BatchTransition) : Guest Unit := do
  check (this.laneKey == prev.laneKey) "lane_key"
  check (this.covenantId == prev.covenantId) "covenant_id"
  check (this.txImageId == prev.txImageId) "tx_image_id"
  check (this.prevState == prev.newState) "prev_state"
  check (this.prevLaneBlueScore == prev.newLaneBlueScore) "lane_blue_score"
  if this.laneExpired = 0 then check (this.prevLaneTip == prev.newLaneTip) "prev_lane_tip"
  else pure ()

def absorb (acc : ExitAccumulator) (exits : acc.State) (carry : Hash) (this : BatchTransition) :
    Guest (Folded acc) := do
  let exits ← streamExits acc exits this.exits.iter
  let carry ← carryDepositHash "bundle" carry this.depositSpkHash
  pure ⟨this, exits, carry⟩

section

variable (verifyBatchJournal : Hash → Bytes → Bool)

def foldBatches (acc : ExitAccumulator) (imageId : Hash) (s : Folded acc) :
    List (Result Bytes) → Guest (Folded acc)
  | [] => .ok s
  | entry :: rest => do
      let bytes ← expectOk entry "decode batch journal"
      let this ← verifiedJournal verifyBatchJournal imageId bytes
      checkLink s.last this
      let s ← absorb acc s.exits s.depositSpkHash this
      foldBatches acc imageId s rest

/-- `Verifier::new` and `Verifier::verify_batches`: the first batch anchors the
bundle, the others are folded onto it. -/
def verifyBatches (acc : ExitAccumulator) (inputs : Inputs) :
    Guest (BatchTransition × Folded acc) := do
  match inputs.batchJournals.iter with
  | [] => .error (.panic "empty bundle")
  | entry :: rest => do
      let bytes ← expectOk entry "first journal"
      let first ← verifiedJournal verifyBatchJournal inputs.batchImageId bytes
      let s ← absorb acc acc.init zeroHash first
      let s ← foldBatches verifyBatchJournal acc inputs.batchImageId s rest
      pure (first, s)

end

def newSeqCommit (L : SeqCommitLib) (laneProof : LaneProof) (laneKey laneTip : Hash)
    (blueScore : UInt64) : Guest Hash := do
  let newLaneLeaf := L.smtLeafHash laneTip blueScore
  let newLanesRoot ← orPanic (L.computeRoot laneProof.laneSmtProof laneKey (some newLaneLeaf))
    "lane_smt_proof compute_root"
  let activityRoot := L.activityRootHash laneProof.inactivityShortcut newLanesRoot
  let stateRootSeq := L.seqStateRoot activityRoot laneProof.payloadAndCtxDigest
  pure (L.seqCommit laneProof.prevSeqCommit stateRootSeq)

def commitStateTransition (L : SeqCommitLib) (acc : ExitAccumulator) (inputs : Inputs)
    (first : BatchTransition) (s : Folded acc) : Guest StateTransition := do
  let commit ← newSeqCommit L inputs.laneProof first.laneKey s.last.newLaneTip s.last.newLaneBlueScore
  let permissionSpkHash ← acc.finalize s.exits
  pure
    { prevState := first.prevState
      prevLaneTip := first.prevLaneTip
      newState := s.last.newState
      newLaneTip := s.last.newLaneTip
      newSeqCommit := commit
      covenantId := first.covenantId
      txImageId := first.txImageId
      batchImageId := inputs.batchImageId
      permissionSpkHash := permissionSpkHash
      depositSpkHash := s.depositSpkHash
      laneKey := first.laneKey }

/-- A whole guest run, from decoded inputs to the settlement statement. -/
def main (L : SeqCommitLib) (verifyBatchJournal : Hash → Bytes → Bool) (acc : ExitAccumulator)
    (inputs : Inputs) : Guest StateTransition := do
  let (first, s) ← verifyBatches verifyBatchJournal acc inputs
  commitStateTransition L acc inputs first s

end Vprogs.Lane.BatchAggregator
