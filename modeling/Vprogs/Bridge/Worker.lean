import Vprogs.Abi.Input
import Vprogs.Canonical.Manager
import Vprogs.L1.Settlement
import Vprogs.Lane.SeqCommit

/-!
The bridge worker. It reads updates of the base chain's virtual selected chain from a
node and appends the chain's blocks to a sink, the canonical chain manager, each with
metadata threaded from the block before it. All of its state about the chain is in the
sink: the parent of the next block is the sink's tip. A response is handled block by
block, so that an error leaves what was done before it. `none` stands for a panic.
-/
namespace Vprogs.Bridge

open Abi Canonical L1 Lane

/-- Per-block metadata the bridge attaches to each chain block. -/
structure ChainBlockMetadata where
  hash : Hash := zeroHash
  /-- Canonical id of the block this one extends; 0 for the first. -/
  parentId : Nat := 0
  blueScore : UInt64 := 0
  daaScore : UInt64 := 0
  timestamp : UInt64 := 0
  prevTimestamp : UInt64 := 0
  /-- All zeros if no lane is configured. -/
  laneKey : Hash := zeroHash
  seqCommit : Hash := zeroHash
  prevSeqCommit : Hash := zeroHash
  prevLaneBlueScore : UInt64 := 0
  /-- Blue score at which the lane was last active, this block included. -/
  laneBlueScore : UInt64 := 0
  prevLaneTip : Hash := zeroHash
  laneTip : Hash := zeroHash
  laneExpired : Bool := false
  lastSettlement : Option SettlementInfo := none
  deriving DecidableEq

instance : BatchMetadata ChainBlockMetadata where
  blockHash := ChainBlockMetadata.hash
  parentId := ChainBlockMetadata.parentId

structure RpcHeader where
  hash : Hash
  blueScore : UInt64
  daaScore : UInt64
  timestamp : UInt64
  acceptedIdMerkleRoot : Hash

/-- Only the header's fields are set. -/
def ChainBlockMetadata.ofHeader (h : RpcHeader) : ChainBlockMetadata :=
  { hash := h.hash, blueScore := h.blueScore, daaScore := h.daaScore, timestamp := h.timestamp,
    seqCommit := h.acceptedIdMerkleRoot }

/-- A header as a response carries it: the node may leave out any field. -/
structure RpcOptionalHeader where
  hash : Option Hash
  blueScore : Option UInt64
  daaScore : Option UInt64
  timestamp : Option UInt64
  acceptedIdMerkleRoot : Option Hash

def okOr {α : Type} (field : Option α) (missing : String) : Except String α :=
  match field with
  | some value => .ok value
  | none => .error missing

def ChainBlockMetadata.tryFrom (h : RpcOptionalHeader) : Except String ChainBlockMetadata := do
  pure { hash := ← okOr h.hash "missing hash"
         blueScore := ← okOr h.blueScore "missing blue_score"
         daaScore := ← okOr h.daaScore "missing daa_score"
         timestamp := ← okOr h.timestamp "missing timestamp"
         seqCommit := ← okOr h.acceptedIdMerkleRoot "missing seq_commit" }

inductive Error where
  | rpc (message : String)
  | checkpointLost (message : String)
  | reorgBelowFinality (forkChild : Hash)
  | malformedResponse (reason : String)
  | channelClosed (reason : String)
  deriving DecidableEq

section

-- `R` is a transaction as a response carries it
variable (R : Type)

structure RpcChainBlock where
  chainBlockHeader : RpcOptionalHeader
  acceptedTransactions : List R
  /-- The length of a vector on the wire is a 32-bit number. -/
  counted : acceptedTransactions.length < 2 ^ 32

structure VirtualChainResponse where
  /-- The tip first. -/
  removedChainBlockHashes : List Hash
  chainBlockAcceptedTransactions : List (RpcChainBlock R)

/-- What the base chain's libraries provide. -/
structure L1Lib where
  seq : SeqCommitLib
  laneKey : Arr 20 → Hash
  txId : Tx → Hash
  parseScript : Bytes → Option (List Opcode)
  tryFrom : R → Except String Tx

end

structure L1BridgeConfig where
  subnetworkId : Option (Arr 20) := none
  finalityDepth : UInt64
  covenantId : Option Hash := none

structure SchedulerTransaction where
  /-- The position among all transactions the block accepts. -/
  mergeIdx : UInt32
  resources : List AccessMetadata
  tx : Tx
  deriving DecidableEq

section

variable {R : Type} (L : L1Lib R) (cfg : L1BridgeConfig)

/-- The last settlement after a transaction of the block. -/
def carrySettlement (block : ChainBlockMetadata) (lastSettlement : Option SettlementInfo) (tx : Tx) :
    Option SettlementInfo :=
  match cfg.covenantId with
  | some id => (tx.settlementInfo L.parseScript L.txId id block.hash block.daaScore).or lastSettlement
  | none => lastSettlement

def wanted (tx : Tx) : Bool :=
  match cfg.subnetworkId with
  | some want => decide (tx.subnetworkId = want)
  | none => true

def schedulerTransaction (idx : Nat) (tx : Tx) : SchedulerTransaction :=
  ⟨UInt32.ofNat idx, AccessMetadata.ofPayload tx.payload, tx⟩

/-- The loop over a block's accepted transactions, from position `idx` on. -/
def readTxs (block : ChainBlockMetadata) : Nat → Option SettlementInfo → List R →
    Except Error (List SchedulerTransaction × Option SettlementInfo)
  | _, lastSettlement, [] => .ok ([], lastSettlement)
  | idx, lastSettlement, rpcTx :: rest =>
    match L.tryFrom rpcTx with
    | .error e => .error (.malformedResponse e)
    | .ok tx => do
        let (txs, last) ← readTxs block (idx + 1) (carrySettlement L cfg block lastSettlement tx) rest
        pure (if wanted cfg tx then schedulerTransaction idx tx :: txs else txs, last)

/-- The next lane tip, its blue score, and whether the lane was silent past the finality window. -/
def laneState (parent : ChainBlockMetadata) (txs : List SchedulerTransaction) (block : ChainBlockMetadata) :
    Hash × UInt64 × Bool :=
  let blueScore := block.blueScore
  -- a saturating subtraction
  let laneExpired := decide (cfg.finalityDepth.toNat < blueScore.toNat - parent.laneBlueScore.toNat)
  match cfg.subnetworkId with
  | none => (parent.laneTip, parent.laneBlueScore, laneExpired)
  | some id =>
    if txs.isEmpty then (parent.laneTip, parent.laneBlueScore, laneExpired)
    else
      let leaves := txs.map fun tx => L.seq.activityLeaf (L.txId tx.tx) tx.tx.version tx.mergeIdx
      let contextHash := L.seq.mergesetContextHash ⟨parent.timestamp, block.daaScore, blueScore⟩
      let parentRef := if laneExpired then parent.seqCommit else parent.laneTip
      let tip := L.seq.laneTipNext ⟨parentRef, L.laneKey id, L.seq.activityDigest leaves, contextHash⟩
      (tip, blueScore, laneExpired)

/-- The metadata of a block on top of its parent. -/
def threaded (parentId : Nat) (parent block : ChainBlockMetadata) (txs : List SchedulerTransaction)
    (lastSettlement : Option SettlementInfo) : ChainBlockMetadata :=
  let lane := laneState L cfg parent txs block
  { block with
    parentId := parentId
    prevSeqCommit := parent.seqCommit
    laneKey := (cfg.subnetworkId.map L.laneKey).getD zeroHash
    prevTimestamp := parent.timestamp
    prevLaneTip := parent.laneTip
    prevLaneBlueScore := parent.laneBlueScore
    laneBlueScore := lane.2.1
    laneTip := lane.1
    laneExpired := lane.2.2
    lastSettlement := lastSettlement }

end

/-- A block as it is given to the sink, with the tip it was threaded from. -/
structure Appended where
  parent : ChainBlockMetadata
  metadata : ChainBlockMetadata
  txs : List SchedulerTransaction
  deriving DecidableEq

structure BridgeWorker where
  sink : CanonicalChainManager CanonicalChain ChainBlockMetadata
  /-- The seed: the first block's parent. -/
  genesis : ChainBlockMetadata
  /-- The published score of the tip. -/
  tipDaa : UInt64
  /-- The published last settlement. -/
  settlement : Option SettlementInfo
  /-- Every block given to the sink so far. -/
  appended : List Appended := []

namespace BridgeWorker

/-- Goes on unless the part before failed; what that part did stays. -/
def andThen (first : Option (Except Error Unit × BridgeWorker))
    (next : BridgeWorker → Option (Except Error Unit × BridgeWorker)) :
    Option (Except Error Unit × BridgeWorker) :=
  first.bind fun
    | (.ok (), w) => next w
    | (.error e, w) => some (.error e, w)

section

variable {R : Type} (L : L1Lib R) (cfg : L1BridgeConfig) (debug : Bool) (w : BridgeWorker)

def tipMetadata : Option ChainBlockMetadata :=
  match w.sink.chain.tip with
  | 0 => some w.genesis
  | id => w.sink.metadata id

def publish : Option BridgeWorker := do
  let tip ← w.tipMetadata
  pure { w with tipDaa := tip.daaScore, settlement := tip.lastSettlement }

/-- A worker on an empty sink, seeded from a header. -/
def seeded (header : RpcHeader) : BridgeWorker :=
  let genesis := ChainBlockMetadata.ofHeader header
  ⟨{ chain := .empty }, genesis, genesis.daaScore, genesis.lastSettlement, []⟩

/-- Schedules one block of a response. -/
def appendBlock (chainBlock : RpcChainBlock R) : Option (Except Error Unit × BridgeWorker) :=
  match ChainBlockMetadata.tryFrom chainBlock.chainBlockHeader with
  | .error field => some (.error (.malformedResponse field), w)
  | .ok block => do
      let parent ← w.tipMetadata
      match readTxs L cfg block 0 parent.lastSettlement chainBlock.acceptedTransactions with
      | .error e => some (.error e, w)
      | .ok (txs, lastSettlement) =>
        let metadata := threaded L cfg w.sink.chain.tip parent block txs lastSettlement
        let (_, sink) ← w.sink.append (CanonicalChain.oracle debug) metadata
        some (.ok (), { w with sink := sink, appended := w.appended ++ [⟨parent, metadata, txs⟩] })

def appendBlocks : BridgeWorker → List (RpcChainBlock R) → Option (Except Error Unit × BridgeWorker)
  | w, [] => some (.ok (), w)
  | w, chainBlock :: rest => andThen (w.appendBlock L cfg debug chainBlock) fun w => appendBlocks w rest

/-- Rolls the sink back to the block below the last removed one. -/
def handleReorg (removed : List Hash) : Option (Except Error Unit × BridgeWorker) := do
  let forkChildHash ← removed.getLast?
  match w.sink.index forkChildHash with
  | none => some (.error (.reorgBelowFinality forkChildHash), w)
  | some forkChild =>
    let metadata ← w.sink.metadata forkChild
    let sink ← w.sink.rollback (CanonicalChain.oracle debug) metadata.parentId
    some (.ok (), { w with sink := sink })

def applyResponse (response : VirtualChainResponse R) : Option (Except Error Unit × BridgeWorker) :=
  let reorged := if response.removedChainBlockHashes.isEmpty then some (.ok (), w)
    else w.handleReorg debug response.removedChainBlockHashes
  andThen reorged fun w => andThen (w.appendBlocks L cfg debug response.chainBlockAcceptedTransactions) fun w =>
    w.publish.map fun w => (.ok (), w)

/-- `response` is what the node answers to a request from the tip's hash, after retries. -/
def fetchChainUpdates (response : Except Error (VirtualChainResponse R)) :
    Option (Except Error Unit × BridgeWorker) := do
  let _from ← w.tipMetadata
  match response with
  | .error e => some (.error e, w)
  | .ok response => w.applyResponse L cfg debug response

/-- Advances finalization to the node's pruning point, if the sink knows it. The sink
drops its log below `root`, the id its own pruning has reached. -/
def handleFinalization (pruningPoint : Hash) (root : Nat) : BridgeWorker :=
  match w.sink.index pruningPoint with
  | some _ => { w with sink := w.sink.finalize (CanonicalChain.oracle debug) root }
  | none => w

end

end BridgeWorker

end Vprogs.Bridge
