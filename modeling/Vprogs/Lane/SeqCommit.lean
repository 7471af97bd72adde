import Vprogs.Abi.Withdrawal

/-!
The sequencing-commitment hashes of the base chain, as the guests call them.
The hash functions themselves and the lane tree's root computation belong to
the chain's own libraries and are parameters. Collision freedom is assumed only
for the inputs that actually get hashed, because no function into 32 bytes is
injective on everything.
-/
namespace Vprogs.Lane

open Abi

structure MergesetContext where
  timestamp : UInt64
  daaScore : UInt64
  blueScore : UInt64
  deriving DecidableEq

structure LaneTipInput where
  parentRef : Hash
  laneKey : Hash
  activityDigest : Hash
  contextHash : Hash
  deriving DecidableEq

/-- An input of one of the commitment hashes; each has its own domain. -/
inductive HashQuery where
  | mergesetContext (ctx : MergesetContext)
  | activityLeaf (txId : Hash) (version : UInt16) (mergeIdx : UInt32)
  | activityDigest (leaves : List Hash)
  | laneTip (input : LaneTipInput)
  | smtLeaf (laneTip : Hash) (blueScore : UInt64)
  | activityRoot (inactivityShortcut lanesRoot : Hash)
  | seqStateRoot (activityRoot payloadAndCtxDigest : Hash)
  | seqCommit (parentSeqCommit stateRoot : Hash)
  deriving DecidableEq

inductive ProofTerminal where
  | full
  | collapsed (depth : UInt8)
  | collapsedOther (depth : UInt8) (laneKey leafHash : Hash)
  deriving DecidableEq

/-- A membership proof in the chain's tree of lanes. -/
structure SmtProof where
  bitmap : Arr 32
  terminal : ProofTerminal
  siblings : List Hash
  deriving DecidableEq

structure SeqCommitLib where
  hash : HashQuery → Hash
  computeRoot : SmtProof → Hash → Option Hash → Option Hash

namespace SeqCommitLib

variable (L : SeqCommitLib)

def mergesetContextHash (ctx : MergesetContext) : Hash := L.hash (.mergesetContext ctx)

def activityLeaf (txId : Hash) (version : UInt16) (mergeIdx : UInt32) : Hash :=
  L.hash (.activityLeaf txId version mergeIdx)

def activityDigest (leaves : List Hash) : Hash := L.hash (.activityDigest leaves)

def laneTipNext (input : LaneTipInput) : Hash := L.hash (.laneTip input)

def smtLeafHash (laneTip : Hash) (blueScore : UInt64) : Hash := L.hash (.smtLeaf laneTip blueScore)

def activityRootHash (inactivityShortcut lanesRoot : Hash) : Hash :=
  L.hash (.activityRoot inactivityShortcut lanesRoot)

def seqStateRoot (activityRoot payloadAndCtxDigest : Hash) : Hash :=
  L.hash (.seqStateRoot activityRoot payloadAndCtxDigest)

def seqCommit (parentSeqCommit stateRoot : Hash) : Hash :=
  L.hash (.seqCommit parentSeqCommit stateRoot)

/-- No two of the given inputs collide, and none hashes to the all-zero hash. -/
structure CollisionFree (queries : List HashQuery) : Prop where
  injective : ∀ q ∈ queries, ∀ q' ∈ queries, L.hash q = L.hash q' → q = q'
  ne_zero : ∀ q ∈ queries, L.hash q ≠ zeroHash

end SeqCommitLib

/-- A lane transaction as the chain accepted it. -/
structure LaneTx where
  txId : Hash
  version : UInt16
  mergeIdx : UInt32
  deriving DecidableEq

def LaneTx.query (tx : LaneTx) : HashQuery := .activityLeaf tx.txId tx.version tx.mergeIdx

/-- Lane activity of one chain block: its context and its lane transactions. -/
structure Activity where
  context : MergesetContext
  txs : List LaneTx
  deriving DecidableEq

namespace Activity

variable (L : SeqCommitLib) (act : Activity)

def leaves : List Hash := act.txs.map fun tx => L.hash tx.query

def laneTipInput (parentRef laneKey : Hash) : LaneTipInput where
  parentRef := parentRef
  laneKey := laneKey
  activityDigest := L.activityDigest (act.leaves L)
  contextHash := L.mergesetContextHash act.context

/-- The lane tip after this activity, on top of a parent reference. -/
def tip (parentRef laneKey : Hash) : Hash := L.laneTipNext (act.laneTipInput L parentRef laneKey)

/-- Everything hashed on the way to the tip. -/
def queries (parentRef laneKey : Hash) : List HashQuery :=
  .laneTip (act.laneTipInput L parentRef laneKey) :: .mergesetContext act.context ::
    .activityDigest (act.leaves L) :: act.txs.map LaneTx.query

variable {L}

theorem query_mem_queries {act : Activity} {parentRef laneKey : Hash} {tx : LaneTx}
    (h : tx ∈ act.txs) : tx.query ∈ act.queries L parentRef laneKey := by
  have hmem : tx.query ∈ act.txs.map LaneTx.query := List.mem_map_of_mem h
  simp [queries, hmem]

theorem leaves_injective {queries : List HashQuery} (free : L.CollisionFree queries)
    {txs txs' : List LaneTx} (hsub : ∀ tx ∈ txs, tx.query ∈ queries)
    (hsub' : ∀ tx ∈ txs', tx.query ∈ queries)
    (h : txs.map (fun tx => L.hash tx.query) = txs'.map fun tx => L.hash tx.query) : txs = txs' := by
  induction txs generalizing txs' with
  | nil => simpa using h
  | cons tx txs ih =>
    match txs' with
    | [] => simp at h
    | tx' :: txs' =>
      simp only [List.map_cons, List.cons.injEq] at h
      simp only [List.mem_cons, forall_eq_or_imp] at hsub hsub'
      have hq := free.injective _ hsub.1 _ hsub'.1 h.1
      have htx : tx = tx' := by
        cases tx
        cases tx'
        simpa [LaneTx.query] using hq
      rw [htx, ih hsub.2 hsub'.2 h.2]

/-- A lane tip determines its parent reference and its activity. -/
theorem tip_injective {queries : List HashQuery} (free : L.CollisionFree queries) {act act' : Activity}
    {parentRef parentRef' laneKey laneKey' : Hash} (hsub : act.queries L parentRef laneKey ⊆ queries)
    (hsub' : act'.queries L parentRef' laneKey' ⊆ queries)
    (h : act.tip L parentRef laneKey = act'.tip L parentRef' laneKey') :
    parentRef = parentRef' ∧ act = act' := by
  have hinput := free.injective _ (hsub (by simp [Activity.queries])) _
    (hsub' (by simp [Activity.queries])) h
  simp only [laneTipInput, HashQuery.laneTip.injEq, LaneTipInput.mk.injEq] at hinput
  have hctx := free.injective _ (hsub (by simp [Activity.queries])) _
    (hsub' (by simp [Activity.queries])) hinput.2.2.2
  have hdigest := free.injective _ (hsub (by simp [Activity.queries])) _
    (hsub' (by simp [Activity.queries])) hinput.2.2.1
  rw [HashQuery.mergesetContext.injEq] at hctx
  rw [HashQuery.activityDigest.injEq] at hdigest
  have htxs : act.txs = act'.txs :=
    leaves_injective free
      (fun _ htx => hsub (query_mem_queries htx)) (fun _ htx => hsub' (query_mem_queries htx)) hdigest
  refine ⟨hinput.1, ?_⟩
  cases act
  cases act'
  simp_all

end Activity

end Vprogs.Lane
