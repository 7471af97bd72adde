import Vprogs.Abi.Journal
import Vprogs.Lane.SeqCommit
import Vprogs.Smt.Proof

/-!
The batch-processor guest. It reads one chain block's lane transactions as a
stream of transaction journals, checks them against a state proof, and commits
to the state roots and lane tips before and after. Every check is an assertion,
so a run either returns or aborts. The inputs are taken after decoding: every
field of them is the prover's choice.
-/
namespace Vprogs.Lane.BatchProcessor

open Abi

structure Batch where
  blueScore : UInt64
  daaScore : UInt64
  prevTimestamp : UInt64
  prevSeqCommit : Hash
  prevLaneTip : Hash
  prevLaneBlueScore : UInt64
  laneExpired : Bool
  txJournals : Journals
  deriving DecidableEq

structure Inputs where
  txImageId : Hash
  covenantId : Hash
  depositSpkHash : Hash
  laneKey : Hash
  proof : Smt.Proof Hash
  batch : Batch

/-- The proof's key for a resource: the same 32 bytes, big end first. -/
def keyOfId (id : ResourceId) : Smt.Key := BitVec.ofNat 256 (leNat id.val.reverse)

structure Verifier where
  inputs : Inputs
  latestValueHashes : List Hash
  exits : ExitSink
  depositSpkHash : Hash

def carryDepositHash (what : String) (carry txHash : Hash) : Guest Hash :=
  if txHash = zeroHash then .ok carry
  else if carry = zeroHash then .ok txHash
  else do
    check (carry == txHash) s!"two distinct deposit_spk_hash values in one {what}"
    pure carry

def assertDeclaredDepositHash (carry declared : Hash) : Guest Unit :=
  if carry = zeroHash then .ok ()
  else check (carry == declared) "batch deposit_spk_hash does not match the declared pin"

namespace Verifier

section

variable (H : Smt.Hasher Hash)

def new (inputs : Inputs) : Guest Verifier := do
  let _ ← expect inputs.proof.checkSortedQueriedKeys "canonical proof keys"
  let latestValueHashes ← (List.range inputs.proof.memberships.length).mapM fun idx => do
    let m ← expect (inputs.proof.member idx) "unwrap"
    pure (m.valueHash H)
  pure ⟨inputs, latestValueHashes, {}, zeroHash⟩

end

section

variable (verifyTxJournal : Hash → Bytes → Bool)

/-- `merge_idx` is strictly increasing across the batch. -/
def checkMergeIdx (lastMergeIdx : Option UInt32) (mergeIdx : UInt32) : Guest Unit :=
  match lastMergeIdx with
  | some prev => check (decide (prev < mergeIdx)) "merge_idx not increasing"
  | none => .ok ()

/-- Only a transaction of an unsupported version may lack its context. -/
def checkShape (entries : JournalEntries) : Guest Unit :=
  match entries.inputCommitment.executionContext, entries.outputCommitment with
  | some _, _ => .ok ()
  | none, .error (.guest code) =>
    check (code == ErrorCode.versionIncompatible.code)
      "missing execution_context with non-version-incompat error"
  | none, _ => .error (.panic "missing execution_context with non-error output")

def verifiedJournal (inputs : Inputs) (txJournal : Result Bytes) (lastMergeIdx : Option UInt32) :
    Guest JournalEntries := do
  let journalBytes ← expectOk txJournal "decode tx_journal"
  check (verifyTxJournal inputs.txImageId journalBytes) "verify tx journal"
  let entries ← expectOk (JournalEntries.decode journalBytes) "tx journal"
  checkMergeIdx lastMergeIdx entries.inputCommitment.mergeIdx
  checkShape entries
  pure entries

def verifiedBatchIdx (v : Verifier) (r : InputResourceCommitment) : Guest Nat := do
  let batchIdx := r.resourceIndex.toNat
  let latest ← orPanic v.latestValueHashes[batchIdx]? "index out of bounds"
  check (r.hash == latest) "resource hash mismatch"
  let m ← expect (v.inputs.proof.member batchIdx) "member"
  check (keyOfId r.resourceId == m.key) "resource_id mismatch"
  pure batchIdx

/-- Re-emits a transaction's exits into the batch log. -/
def emitExits (exits : ExitSink) : List (Result Exit) → Guest ExitSink
  | [] => .ok exits
  | exit :: rest => do
      let e ← expectOk exit "decode exit entry"
      let exits ← expectOk (exits.emit e.dest e.amount) "emit exit"
      emitExits exits rest

/-- Consumes the output commitment of each input resource in step; `none` for a
failed transaction, which changes nothing. -/
def applyResources (v : Verifier) (outputs : Option (List (Result OutputResourceCommitment))) :
    List InputResourceCommitment → Guest (Verifier × Option (List (Result OutputResourceCommitment)))
  | [] => .ok (v, outputs)
  | r :: rs => do
      let batchIdx ← v.verifiedBatchIdx r
      match outputs with
      | none => applyResources v none rs
      | some items => do
          let (output, items) ← orPanic (items.head?.map (·, items.tail)) "output for input resource"
          match ← expectOk output "unwrap" with
          | .changed hash =>
            applyResources
              { v with latestValueHashes := v.latestValueHashes.set batchIdx hash } (some items) rs
          | .unchanged => applyResources v (some items) rs

/-- The part of the loop body that only executed transactions run. -/
def applyExecution (v : Verifier) (contextHash : Hash) (execCtx : ExecutionContext)
    (output : OutputCommitment) : Guest Verifier := do
  check (execCtx.contextHash == contextHash) "context_hash does not match"
  match output with
  | .success exits depositSpkHash resources => do
      let carry ← carryDepositHash "batch" v.depositSpkHash depositSpkHash
      let emitted ← emitExits v.exits exits.iter
      let v := { v with depositSpkHash := carry, exits := emitted }
      let (v, left) ← applyResources v
        (some (OutputResourceCommitment.decode.items resources)) execCtx.resources
      check (left.all (·.isEmpty)) "more output commitments than input resources"
      pure v
  | .error _ => do
      let (v, _) ← applyResources v none execCtx.resources
      pure v

def applyEntries (v : Verifier) (contextHash : Hash) (entries : JournalEntries) : Guest Verifier :=
  match entries.inputCommitment.executionContext with
  | some execCtx => v.applyExecution contextHash execCtx entries.outputCommitment
  | none => .ok v

/-- The loop over the transaction journals; `leaves` is the activity builder. -/
def verifiedActivity (L : SeqCommitLib) (contextHash : Hash) (v : Verifier)
    (lastMergeIdx : Option UInt32) (leaves : List Hash) :
    List (Result Bytes) → Guest (Verifier × List Hash)
  | [] => .ok (v, leaves)
  | journal :: rest => do
      let entries ← verifiedJournal verifyTxJournal v.inputs journal lastMergeIdx
      let v ← v.applyEntries contextHash entries
      let leaf := L.activityLeaf entries.inputCommitment.txId entries.inputCommitment.version
        entries.inputCommitment.mergeIdx
      verifiedActivity L contextHash v (some entries.inputCommitment.mergeIdx) (leaves ++ [leaf]) rest

/-- Returns the verifier with the batch applied, the new lane tip and the new
lane blue score. -/
def verifyBatch (L : SeqCommitLib) (v : Verifier) : Guest (Verifier × Hash × UInt64) :=
  let batch := v.inputs.batch
  if batch.txJournals.isEmpty then .ok (v, batch.prevLaneTip, batch.prevLaneBlueScore)
  else do
    let contextHash := L.mergesetContextHash ⟨batch.prevTimestamp, batch.daaScore, batch.blueScore⟩
    let (v, leaves) ← verifiedActivity verifyTxJournal L contextHash v none [] batch.txJournals.iter
    assertDeclaredDepositHash v.depositSpkHash v.inputs.depositSpkHash
    let newLaneTip := L.laneTipNext
      { parentRef := if batch.laneExpired then batch.prevSeqCommit else batch.prevLaneTip
        laneKey := v.inputs.laneKey
        activityDigest := L.activityDigest leaves
        contextHash := contextHash }
    pure (v, newLaneTip, batch.blueScore)

end

end Verifier

/-- The journal of one batch. -/
structure BatchTransition where
  prevState : Hash
  prevLaneTip : Hash
  prevLaneBlueScore : UInt64
  newState : Hash
  newLaneTip : Hash
  newLaneBlueScore : UInt64
  laneKey : Hash
  covenantId : Hash
  txImageId : Hash
  depositSpkHash : Hash
  laneExpired : UInt8
  exits : Exits
  deriving DecidableEq

namespace BatchTransition

def encode (t : BatchTransition) : Bytes :=
  t.prevState.val ++ (t.prevLaneTip.val ++ (leBytes 8 t.prevLaneBlueScore.toNat ++
    (t.newState.val ++ (t.newLaneTip.val ++ (leBytes 8 t.newLaneBlueScore.toNat ++
      (t.laneKey.val ++ (t.covenantId.val ++ (t.txImageId.val ++ (t.depositSpkHash.val ++
        (t.laneExpired :: t.exits))))))))))

/-- The cast to the wire layout: a fixed header and the exits as the rest. -/
def read : Reader CodecError BatchTransition := do
  let prevState ← Reader.array 32 "prev_state"
  let prevLaneTip ← Reader.array 32 "prev_lane_tip"
  let prevLaneBlueScore ← Reader.leU64 "prev_lane_blue_score"
  let newState ← Reader.array 32 "new_state"
  let newLaneTip ← Reader.array 32 "new_lane_tip"
  let newLaneBlueScore ← Reader.leU64 "new_lane_blue_score"
  let laneKey ← Reader.array 32 "lane_key"
  let covenantId ← Reader.array 32 "covenant_id"
  let txImageId ← Reader.array 32 "tx_image_id"
  let depositSpkHash ← Reader.array 32 "deposit_spk_hash"
  let laneExpired ← Reader.byte "lane_expired"
  let exits ← get
  pure ⟨prevState, prevLaneTip, prevLaneBlueScore, newState, newLaneTip, newLaneBlueScore, laneKey,
    covenantId, txImageId, depositSpkHash, laneExpired, exits⟩

def refFromBytes (bytes : Bytes) : Except CodecError BatchTransition := do
  let (t, _) ← read.run bytes
  pure t

theorem refFromBytes_encode (t : BatchTransition) : refFromBytes t.encode = .ok t := by
  have h : read.run t.encode = .ok (t, t.exits) := by
    simp only [read, encode, Reader.run_bind_eq_ok, Reader.run_array, Reader.run_leU64,
      Reader.run_byte]
    exact ⟨_, _, rfl, _, _, rfl, _, _, rfl, _, _, rfl, _, _, rfl, _, _, rfl, _, _, rfl, _, _, rfl,
      _, _, rfl, _, _, rfl, _, _, rfl, _, _, rfl, rfl⟩
  rw [refFromBytes, h]
  rfl

end BatchTransition

/-- The journal the guest commits once the batch is verified. -/
def Verifier.commitBatchTransition (H : Smt.Hasher Hash) (v : Verifier) (newLaneTip : Hash)
    (newLaneBlueScore : UInt64) : Guest BatchTransition := do
  -- One hash per membership was collected at the start, so no lookup misses.
  let (prevRoot, newRoot) ← expect
    (v.inputs.proof.computeRoots H fun q => v.latestValueHashes.getD q zeroHash) "compute_roots"
  pure
    { prevState := prevRoot
      prevLaneTip := v.inputs.batch.prevLaneTip
      prevLaneBlueScore := v.inputs.batch.prevLaneBlueScore
      newState := newRoot
      newLaneTip := newLaneTip
      newLaneBlueScore := newLaneBlueScore
      laneKey := v.inputs.laneKey
      covenantId := v.inputs.covenantId
      txImageId := v.inputs.txImageId
      depositSpkHash := v.depositSpkHash
      laneExpired := if v.inputs.batch.laneExpired then 1 else 0
      exits := v.exits.buf }

/-- A whole guest run, from decoded inputs to the journal's bytes. -/
def main (H : Smt.Hasher Hash) (L : SeqCommitLib) (verifyTxJournal : Hash → Bytes → Bool)
    (inputs : Inputs) : Guest Bytes := do
  let v ← Verifier.new H inputs
  let (v, newLaneTip, newLaneBlueScore) ← v.verifyBatch verifyTxJournal L
  let t ← v.commitBatchTransition H newLaneTip newLaneBlueScore
  pure t.encode

end Vprogs.Lane.BatchProcessor
