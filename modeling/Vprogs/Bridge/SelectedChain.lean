import Vprogs.Bridge.Worker
import Vprogs.Canonical.BlockTree
import Vprogs.Runs

/-!
The selected chain the bridge is to mirror. A block's hash determines its selected
parent, its header and the transactions it accepts. A node reports how its selected
chain has changed: which blocks of the chain tracked so far are gone, and which extend
what remains. Single blocks of a response may be malformed; the bridge then stops in
front of the first such block.
-/
namespace Vprogs.Bridge

open Abi Canonical L1 Lane

structure L1Block where
  /-- The selected parent. -/
  parent : Hash
  blueScore : UInt64
  daaScore : UInt64
  timestamp : UInt64
  seqCommit : Hash
  /-- The transactions it accepts. -/
  txs : List Tx

/-- The blocks of the base chain under their hashes. -/
abbrev Dag := Hash → L1Block

section

variable {R : Type} (L : L1Lib R) (cfg : L1BridgeConfig)

/-- The transactions of the configured subnetwork, with their positions in the block. -/
def laneTxs (idx : Nat) (txs : List Tx) : List SchedulerTransaction :=
  ((txs.zipIdx idx).filter fun tx => wanted cfg tx.1).map fun tx => schedulerTransaction tx.2 tx.1

def RpcChainBlock.parse (chainBlock : RpcChainBlock R) : Except Error (ChainBlockMetadata × List Tx) :=
  match ChainBlockMetadata.tryFrom chainBlock.chainBlockHeader with
  | .error field => .error (.malformedResponse field)
  | .ok block =>
    match chainBlock.acceptedTransactions.mapM L.tryFrom with
    | .error e => .error (.malformedResponse e)
    | .ok txs => .ok (block, txs)

/-- How many blocks come before the first malformed one. -/
def readable (chainBlocks : List (RpcChainBlock R)) : Nat :=
  (chainBlocks.takeWhile fun chainBlock => (chainBlock.parse L).toBool).length

theorem readTxs_eq (block : ChainBlockMetadata) (idx : Nat) (last : Option SettlementInfo) (rpcTxs : List R) :
    readTxs L cfg block idx last rpcTxs =
      match rpcTxs.mapM L.tryFrom with
      | .error e => .error (.malformedResponse e)
      | .ok txs => .ok (laneTxs cfg idx txs, txs.foldl (carrySettlement L cfg block) last) := by
  induction rpcTxs generalizing idx last with
  | nil => rfl
  | cons rpcTx rest ih =>
    rw [readTxs, List.mapM_cons]
    cases htx : L.tryFrom rpcTx with
    | error e => rfl
    | ok tx =>
      dsimp only
      rw [ih]
      cases hrest : rest.mapM L.tryFrom with
      | error e => rfl
      | ok txs =>
        change Except.ok _ = Except.ok _
        rw [laneTxs, laneTxs, List.zipIdx_cons, List.filter_cons]
        split <;> rfl

variable {L cfg}

/-- A block of a response is read as a whole before it is appended. -/
theorem BridgeWorker.appendBlock_eq (debug : Bool) {w : BridgeWorker} {parent : ChainBlockMetadata} (hparent : w.tipMetadata = some parent)
    (chainBlock : RpcChainBlock R) :
    w.appendBlock L cfg debug chainBlock =
      match chainBlock.parse L with
      | .error e => some (.error e, w)
      | .ok (block, txs) =>
        let metadata := threaded L cfg w.sink.chain.tip parent block (laneTxs cfg 0 txs)
          (txs.foldl (carrySettlement L cfg block) parent.lastSettlement)
        (w.sink.step (CanonicalChain.oracle debug) (.append metadata)).map fun sink =>
          (.ok (), { w with sink := sink, appended := w.appended ++ [⟨parent, metadata, laneTxs cfg 0 txs⟩] }) := by
  rw [BridgeWorker.appendBlock, RpcChainBlock.parse]
  cases ChainBlockMetadata.tryFrom chainBlock.chainBlockHeader with
  | error field => rfl
  | ok block =>
    dsimp only
    rw [hparent, Option.bind_eq_bind, Option.bind_some, readTxs_eq]
    cases chainBlock.acceptedTransactions.mapM L.tryFrom with
    | error e => rfl
    | ok txs =>
      dsimp only
      rw [CanonicalChainManager.step]
      cases w.sink.append (CanonicalChain.oracle debug) _ with
      | none => rfl
      | some r => rfl

end

namespace Dag

variable {R : Type} (L : L1Lib R) (cfg : L1BridgeConfig) (dag : Dag)

def header (hash : Hash) : ChainBlockMetadata :=
  { hash := hash, blueScore := (dag hash).blueScore, daaScore := (dag hash).daaScore,
    timestamp := (dag hash).timestamp, seqCommit := (dag hash).seqCommit }

/-- The settlements of the tracked covenant in a block, in order. -/
def settlements (hash : Hash) : List SettlementInfo :=
  (dag hash).txs.filterMap fun tx => cfg.covenantId.bind fun id =>
    tx.settlementInfo L.parseScript L.txId id hash (dag hash).daaScore

/-- The last settlement on a chain. -/
def lastSettlement (chain : List Hash) : Option SettlementInfo :=
  (chain.flatMap (dag.settlements L cfg)).getLast?

/-- A block's metadata on top of its parent's. -/
def metadata (parentId : Nat) (parent : ChainBlockMetadata) (hash : Hash) : ChainBlockMetadata :=
  threaded L cfg parentId parent (dag.header hash) (laneTxs cfg 0 (dag hash).txs)
    ((dag hash).txs.foldl (carrySettlement L cfg (dag.header hash)) parent.lastSettlement)

/-- Each block's selected parent is the block before it. -/
def Selected (from_ : Hash) (chain : List Hash) : Prop :=
  List.IsChain (fun parent hash => (dag hash).parent = parent) (from_ :: chain)

variable {L cfg dag}

theorem foldl_carry (hash : Hash) (last : Option SettlementInfo) :
    (dag hash).txs.foldl (carrySettlement L cfg (dag.header hash)) last =
      (dag.settlements L cfg hash).getLast?.or last := by
  rw [settlements]
  generalize (dag hash).txs = txs
  induction txs generalizing last with
  | nil => rfl
  | cons tx txs ih =>
    have hcarry : carrySettlement L cfg (dag.header hash) last tx =
        (cfg.covenantId.bind fun id => tx.settlementInfo L.parseScript L.txId id hash (dag hash).daaScore).or last := by
      rw [carrySettlement]
      cases cfg.covenantId <;> rfl
    rw [List.foldl_cons, ih, hcarry, List.filterMap_cons, ← Option.or_assoc]
    cases cfg.covenantId.bind fun id => tx.settlementInfo L.parseScript L.txId id hash (dag hash).daaScore with
    | none => rw [Option.or_none]
    | some info => rw [List.getLast?_cons, Option.or_some]

theorem lastSettlement_concat (chain : List Hash) (hash : Hash) :
    dag.lastSettlement L cfg (chain ++ [hash]) =
      (dag.settlements L cfg hash).getLast?.or (dag.lastSettlement L cfg chain) := by
  rw [lastSettlement, lastSettlement, List.flatMap_append, List.flatMap_singleton, List.getLast?_append]

variable (L cfg dag)

/-- What the response says of a block is so, unless it is malformed. -/
def Presents (chainBlock : RpcChainBlock R) (hash : Hash) : Prop :=
  match chainBlock.parse L with
  | .ok (block, txs) => block = dag.header hash ∧ txs = (dag hash).txs
  | .error _ => True

instance (chainBlock : RpcChainBlock R) (hash : Hash) : Decidable (dag.Presents L chainBlock hash) :=
  match hparse : chainBlock.parse L with
  | .ok (block, txs) => decidable_of_iff (block = dag.header hash ∧ txs = (dag hash).txs)
      (by rw [Presents, hparse])
  | .error _ => isTrue (by rw [Presents, hparse]; trivial)

end Dag

section

variable (R : Type)

inductive Event where
  /-- A response that keeps the first `kept` blocks of the tracked chain and adds `added`. -/
  | fetch (response : Except Error (VirtualChainResponse R)) (kept : Nat) (added : List Hash)
  | finalization (pruningPoint : Hash) (root : Nat)

end

structure Session where
  worker : BridgeWorker
  /-- The node's selected chain from the seed, as last reported. -/
  selected : List Hash
  /-- What the bridge has followed of it. -/
  chain : List Hash
  /-- Of the last fetch. -/
  outcome : Except Error Unit

namespace Session

variable {R : Type} (L : L1Lib R) (cfg : L1BridgeConfig) (dag : Dag) (debug : Bool) (s : Session)

def start (header : RpcHeader) : Session := ⟨.seeded header, [], [], .ok ()⟩

def step : Event R → Option Session
  | .fetch response kept added => do
      let (outcome, worker) ← s.worker.fetchChainUpdates L cfg debug response
      match response with
      | .error _ => some { s with worker := worker, outcome := outcome }
      | .ok response =>
        let count := readable L response.chainBlockAcceptedTransactions
        some ⟨worker, s.chain.take kept ++ added, s.chain.take kept ++ added.take count, outcome⟩
  | .finalization pruningPoint root =>
    some { s with worker := s.worker.handleFinalization debug pruningPoint root }

/-- A response reports a change of the selected chain above the finality point: the
block the new ones are built on is in the sink's log, or it is the seed and the sink has
dropped nothing. The pruning point, once known to the sink, is on the tracked chain. -/
def Consistent : Event R → Prop
  | .fetch (.ok response) kept added =>
    kept ≤ s.chain.length ∧
    response.removedChainBlockHashes = (s.chain.drop kept).reverse ∧
    (kept = 0 → s.worker.sink.base = 1) ∧
    (∀ hash ∈ (s.chain.take kept).getLast?, (s.worker.sink.index hash).isSome = true) ∧
    dag.Selected ((s.chain.take kept).getLast?.getD s.worker.genesis.hash) added ∧
    s.worker.genesis.hash ∉ added ∧
    List.Forall₂ (dag.Presents L) response.chainBlockAcceptedTransactions added
  | .fetch (.error _) _ _ => True
  | .finalization pruningPoint root =>
    ∀ id ∈ s.worker.sink.index pruningPoint, pruningPoint ∈ s.chain ∧ root ≤ id

/-- The blocks that return have ids in the bucket of the highest id given out. -/
def Forward : Event R → Prop
  | .fetch (.ok response) _ added =>
    ∀ hash ∈ added.take (readable L response.chainBlockAcceptedTransactions),
      ∀ id ∈ s.worker.sink.index hash, Bucket.locate s.worker.sink.seen ≤ Bucket.locate id
  | _ => True

instance : (e : Event R) → Decidable (s.Consistent L dag e)
  | .fetch (.ok _) _ _ => by unfold Consistent Dag.Selected; infer_instance
  | .fetch (.error _) _ _ => isTrue trivial
  | .finalization _ _ => by unfold Consistent; infer_instance

instance : (e : Event R) → Decidable (s.Forward L e)
  | .fetch (.ok _) _ _ => by unfold Forward; infer_instance
  | .fetch (.error _) _ _ | .finalization _ _ => isTrue trivial

end Session

end Vprogs.Bridge
