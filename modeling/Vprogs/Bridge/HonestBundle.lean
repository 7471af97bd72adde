import Vprogs.Bridge.SelectedChain
import Vprogs.Lane.BundleBinding
import Vprogs.Lane.Honest

/-!
Bundles of blocks the bridge appended are accepted by the guests. The bridge folds the
lane's tip over every block, the silent ones included; the guests recompute it from the
active blocks alone. Both agree because a silent block hands the lane state on.
-/
namespace Vprogs.Bridge

open Abi Canonical L1 Lane Runs

section

variable {R : Type} (L : L1Lib R) (cfg : L1BridgeConfig)

/-- The block is what the bridge makes of some header and accepted transactions on top
of the parent. -/
def Appended.Threaded (b : Appended) : Prop :=
  ∃ (parentId : Nat) (block : ChainBlockMetadata) (accepted : List Tx) (last : Option SettlementInfo),
    accepted.length < 2 ^ 32 ∧ b.txs = laneTxs cfg 0 accepted ∧
      b.metadata = threaded L cfg parentId b.parent block b.txs last

def BridgeWorker.Threaded (w : BridgeWorker) : Prop := ∀ b ∈ w.appended, b.Threaded L cfg

variable {L cfg} {w : BridgeWorker} {debug : Bool}

/-! ### Whatever is appended is threaded -/

theorem RpcChainBlock.length_of_parse {chainBlock : RpcChainBlock R} {block : ChainBlockMetadata} {txs : List Tx}
    (h : chainBlock.parse L = .ok (block, txs)) : txs.length < 2 ^ 32 := by
  rw [RpcChainBlock.parse] at h
  split at h
  · cases h
  · split at h
    · cases h
    · next hmap =>
      cases h
      rw [length_of_mapM hmap]
      exact chainBlock.counted

/-- Every worker the call may leave behind meets `P`. -/
def Leaves (P : BridgeWorker → Prop) (call : Option (Except Error Unit × BridgeWorker)) : Prop :=
  ∀ outcome w', call = some (outcome, w') → P w'

theorem Leaves.andThen {P : BridgeWorker → Prop} {first : Option (Except Error Unit × BridgeWorker)}
    {next : BridgeWorker → Option (Except Error Unit × BridgeWorker)} (hfirst : Leaves P first)
    (hnext : ∀ w', P w' → Leaves P (next w')) : Leaves P (BridgeWorker.andThen first next) := by
  intro outcome w' h
  have ⟨⟨result, w₁⟩, hcall, hrest⟩ := Option.bind_eq_some_iff.mp h
  match result with
  | .ok () => exact hnext w₁ (hfirst _ w₁ hcall) outcome w' hrest
  | .error e =>
    cases hrest
    exact hfirst _ _ hcall

theorem appendBlock_threaded (h : w.Threaded L cfg) (chainBlock : RpcChainBlock R) :
    Leaves (BridgeWorker.Threaded L cfg) (w.appendBlock L cfg debug chainBlock) := by
  intro outcome w' hcall
  cases hparent : w.tipMetadata with
  | none =>
    rw [BridgeWorker.appendBlock, hparent] at hcall
    split at hcall
    · cases hcall
      exact h
    · cases hcall
  | some parent =>
    rw [BridgeWorker.appendBlock_eq debug hparent] at hcall
    split at hcall
    · cases hcall
      exact h
    · next block txs hparse =>
      obtain ⟨sink, _, heq⟩ := Option.map_eq_some_iff.mp hcall
      cases heq
      intro b hb
      rcases List.mem_append.mp hb with hold | hnew
      · exact h b hold
      · cases List.mem_singleton.mp hnew
        exact ⟨_, block, txs, _, RpcChainBlock.length_of_parse hparse, rfl, rfl⟩

theorem appendBlocks_threaded (h : w.Threaded L cfg) (chainBlocks : List (RpcChainBlock R)) :
    Leaves (BridgeWorker.Threaded L cfg) (w.appendBlocks L cfg debug chainBlocks) := by
  induction chainBlocks generalizing w with
  | nil =>
    intro outcome w' hcall
    cases hcall
    exact h
  | cons chainBlock rest ih =>
    exact Leaves.andThen (appendBlock_threaded h chainBlock) fun w' hw' => ih hw'

theorem handleReorg_threaded (h : w.Threaded L cfg) (removed : List Hash) :
    Leaves (BridgeWorker.Threaded L cfg) (w.handleReorg debug removed) := by
  intro outcome w' hcall
  have ⟨forkChild, _, hcall⟩ := Option.bind_eq_some_iff.mp hcall
  split at hcall
  · cases hcall
    exact h
  · have ⟨_, _, hcall⟩ := Option.bind_eq_some_iff.mp hcall
    have ⟨_, _, hcall⟩ := Option.bind_eq_some_iff.mp hcall
    cases hcall
    exact h

theorem fetchChainUpdates_threaded (h : w.Threaded L cfg) (response : Except Error (VirtualChainResponse R)) :
    Leaves (BridgeWorker.Threaded L cfg) (w.fetchChainUpdates L cfg debug response) := by
  intro outcome w' hcall
  have ⟨_, _, hcall⟩ := Option.bind_eq_some_iff.mp hcall
  match response with
  | .error e =>
    cases hcall
    exact h
  | .ok response =>
    refine Leaves.andThen ?_ (fun w₁ hw₁ => Leaves.andThen (appendBlocks_threaded hw₁ _) fun w₂ hw₂ => ?_)
      outcome w' hcall
    · split
      · intro outcome w' hcall
        cases hcall
        exact h
      · exact handleReorg_threaded h _
    · intro outcome w' hcall
      have ⟨w₃, hpublish, heq⟩ := Option.map_eq_some_iff.mp hcall
      cases heq
      have ⟨_, _, heq⟩ := Option.bind_eq_some_iff.mp hpublish
      cases heq
      exact hw₂

theorem run_threaded {header : RpcHeader} {events : List (Event R)} {s : Session}
    (hrun : run (Session.step L cfg debug) (Session.start header) events = some s) :
    s.worker.Threaded L cfg := by
  refine invariant_all (I := fun s => s.worker.Threaded L cfg) (fun {s e s'} h hstep => ?_) (fun b hb => by cases hb)
    hrun
  match e with
  | .fetch response kept added =>
    have ⟨⟨outcome, worker⟩, hcall, hrest⟩ := Option.bind_eq_some_iff.mp hstep
    have hworker := fetchChainUpdates_threaded h response outcome worker hcall
    match response with
    | .error _ | .ok _ =>
      cases hrest
      exact hworker
  | .finalization pruningPoint root =>
    cases hstep
    change BridgeWorker.Threaded L cfg (s.worker.handleFinalization debug pruningPoint root)
    rw [BridgeWorker.handleFinalization]
    split <;> exact h

/-! ### The lane state along consecutive blocks -/

namespace Appended

variable {b : Appended}

theorem Threaded.prev (h : b.Threaded L cfg) :
    b.metadata.prevLaneTip = b.parent.laneTip ∧ b.metadata.prevLaneBlueScore = b.parent.laneBlueScore := by
  have ⟨_, _, _, _, _, _, heq⟩ := h
  rw [heq]
  exact ⟨rfl, rfl⟩

/-- A silent block hands the lane state on. -/
theorem Threaded.silent (h : b.Threaded L cfg) (hsilent : b.txs = []) :
    b.metadata.laneTip = b.parent.laneTip ∧ b.metadata.laneBlueScore = b.parent.laneBlueScore := by
  have ⟨_, _, _, _, _, _, heq⟩ := h
  rw [heq, hsilent, threaded, laneState]
  cases cfg.subnetworkId <;> exact ⟨rfl, rfl⟩

def leaves (L : L1Lib R) (b : Appended) : List Hash :=
  b.txs.map fun tx => L.seq.activityLeaf (L.txId tx.tx) tx.tx.version tx.mergeIdx

/-- An active block's lane tip, in terms of what its own metadata says. -/
theorem Threaded.active (h : b.Threaded L cfg) {id : Arr 20} (hlane : cfg.subnetworkId = some id)
    (hactive : b.txs ≠ []) :
    b.metadata.laneTip = L.seq.laneTipNext
        { parentRef := if b.metadata.laneExpired then b.metadata.prevSeqCommit else b.metadata.prevLaneTip
          laneKey := L.laneKey id
          activityDigest := L.seq.activityDigest (b.leaves L)
          contextHash := L.seq.mergesetContextHash
            ⟨b.metadata.prevTimestamp, b.metadata.daaScore, b.metadata.blueScore⟩ } ∧
      b.metadata.laneBlueScore = b.metadata.blueScore := by
  have ⟨_, _, _, _, _, _, heq⟩ := h
  have hnot : b.txs.isEmpty = false := by
    rw [List.isEmpty_eq_false_iff]
    exact hactive
  rw [heq, threaded, laneState, hlane]
  simp only [hnot]
  exact ⟨rfl, rfl⟩

theorem Threaded.ordered (h : b.Threaded L cfg) : b.txs.Pairwise fun a b => a.mergeIdx < b.mergeIdx := by
  have ⟨_, _, accepted, _, hlen, htxs, _⟩ := h
  rw [htxs, laneTxs, List.pairwise_map]
  refine List.Pairwise.filter _ ?_
  have hindices : ((accepted.zipIdx 0).map Prod.snd).Pairwise (· < ·) := by
    rw [List.zipIdx_map_snd]
    exact List.pairwise_lt_range'
  refine List.Pairwise.imp_of_mem (fun {p q} hp hq hlt => ?_) (List.pairwise_map.mp hindices)
  have hq' := (List.mem_zipIdx hq).2.1
  have hsize : UInt32.size = 2 ^ 32 := rfl
  rw [schedulerTransaction, schedulerTransaction, UInt32.lt_iff_toNat_lt]
  dsimp only
  rw [UInt32.toNat_ofNat_of_lt' (by omega), UInt32.toNat_ofNat_of_lt' (by omega)]
  exact hlt

end Appended

def Appended.active (b : Appended) : Bool := !b.txs.isEmpty

/-- Each block begins with the lane state the one before ended with. -/
def Continues : Hash → UInt64 → List Appended → Prop
  | _, _, [] => True
  | laneTip, laneBlueScore, b :: rest =>
    b.metadata.prevLaneTip = laneTip ∧ b.metadata.prevLaneBlueScore = laneBlueScore ∧
      Continues b.metadata.laneTip b.metadata.laneBlueScore rest

/-- The lane tip after the blocks. -/
def endTip (laneTip : Hash) (blocks : List Appended) : Hash :=
  (blocks.getLast?.map fun b => b.metadata.laneTip).getD laneTip

theorem endTip_cons (laneTip : Hash) (b : Appended) (rest : List Appended) :
    endTip laneTip (b :: rest) = endTip b.metadata.laneTip rest := by
  rw [endTip, endTip, List.getLast?_cons]
  cases rest.getLast? <;> rfl

/-- The active blocks among consecutive ones continue each other's lane state, and end
on that of them all. -/
theorem active_continues {blocks : List Appended} {parent : ChainBlockMetadata}
    (hthreaded : ∀ b ∈ blocks, b.Threaded L cfg) (hparent : ∀ b ∈ blocks.head?, b.parent = parent)
    (hconsecutive : blocks.IsChain fun prev next => next.parent = prev.metadata) :
    Continues parent.laneTip parent.laneBlueScore (blocks.filter Appended.active) ∧
      endTip parent.laneTip (blocks.filter Appended.active) = endTip parent.laneTip blocks := by
  induction blocks generalizing parent with
  | nil => exact ⟨trivial, rfl⟩
  | cons b rest ih =>
    have ⟨hb, hrest⟩ := List.forall_mem_cons.mp hthreaded
    have hbparent : b.parent = parent := hparent b rfl
    have hnext : ∀ next ∈ rest.head?, next.parent = b.metadata := fun next hnext =>
      List.IsChain.rel_head? hconsecutive hnext
    have ⟨hcontinues, hend⟩ := ih hrest hnext (List.isChain_of_isChain_cons hconsecutive)
    rw [endTip_cons, ← hend, List.filter_cons]
    split
    · have ⟨htip, hscore⟩ := hb.prev
      rw [hbparent] at htip hscore
      rw [endTip_cons]
      exact ⟨⟨htip, hscore, hcontinues⟩, rfl⟩
    · next hsilent =>
      have hnil : b.txs = [] := by
        rw [Appended.active, Bool.not_eq_true', Bool.not_eq_false] at hsilent
        exact List.isEmpty_iff.mp hsilent
      have ⟨htip, hscore⟩ := hb.silent hnil
      rw [hbparent] at htip hscore
      rw [← htip, ← hscore]
      exact ⟨hcontinues, rfl⟩

end

/-! ### Honest batches -/

/-- What the batch prover declares for every batch. -/
structure BatchPins where
  txImageId : Hash
  covenantId : Hash
  depositSpkHash : Hash
  laneKey : Hash

/-- The input of the batch guest for a block, as it is encoded from the metadata. -/
def BatchPins.inputs (pins : BatchPins) (proof : Smt.Proof Hash) (metadata : ChainBlockMetadata)
    (txJournals : List Bytes) : BatchProcessor.Inputs where
  txImageId := pins.txImageId
  covenantId := pins.covenantId
  depositSpkHash := pins.depositSpkHash
  laneKey := pins.laneKey
  proof := proof
  batch :=
    { blueScore := metadata.blueScore
      daaScore := metadata.daaScore
      prevTimestamp := metadata.prevTimestamp
      prevSeqCommit := metadata.prevSeqCommit
      prevLaneTip := metadata.prevLaneTip
      prevLaneBlueScore := metadata.prevLaneBlueScore
      laneExpired := metadata.laneExpired
      txJournals := txJournals.flatMap writeBlob }

/-- The journal entries attest the scheduled transaction. -/
structure Attests {R : Type} (L : L1Lib R) (tx : SchedulerTransaction) (e : JournalEntries) : Prop where
  txId : e.inputCommitment.txId = L.txId tx.tx
  version : e.inputCommitment.version = tx.tx.version
  mergeIdx : e.inputCommitment.mergeIdx = tx.mergeIdx

/-- Honest journals and an honest proof for a block: the journals are the transaction
guest's, one for each lane transaction in order, and describe a sequential run in the
block's context from the state that the proof attests. -/
structure HonestBatch {R : Type} (H : Smt.Hasher Hash) (L : L1Lib R) (verifyTxJournal : Hash → Bytes → Bool)
    (pins : BatchPins) (b : Appended) where
  proof : Smt.Proof Hash
  journals : List Bytes
  entries : List JournalEntries
  before : State
  after : State
  exits : List Exit
  deposits : List Hash
  opens : ∃ v, BatchProcessor.Verifier.new H (pins.inputs proof b.metadata journals) = .ok v
  attested : TruePre H (pins.inputs proof b.metadata journals) before
  fits : ∀ journal ∈ journals, journal.length < 2 ^ 32
  genuine : List.Forall₂ (fun bytes e => verifyTxJournal pins.txImageId bytes = true ∧
    JournalEntries.decode bytes = .ok e) journals entries
  txs : List.Forall₂ (Attests L) b.txs entries
  covered : ∀ e ∈ entries, Covers proof e ∧ InContext (L.seq.mergesetContextHash
    ⟨b.metadata.prevTimestamp, b.metadata.daaScore, b.metadata.blueScore⟩) e
  run : TxRun before entries after exits deposits
  pinned : ∀ d ∈ deposits, Pinned pins.depositSpkHash d

theorem attests_map {R : Type} {L : L1Lib R} {txs : List SchedulerTransaction} {entries : List JournalEntries}
    (h : List.Forall₂ (Attests L) txs entries) :
    entries.map (activityLeafOf L.seq) =
        txs.map (fun tx => L.seq.activityLeaf (L.txId tx.tx) tx.tx.version tx.mergeIdx) ∧
      entries.map (fun e => e.inputCommitment.mergeIdx) = txs.map SchedulerTransaction.mergeIdx := by
  induction h with
  | nil => exact ⟨rfl, rfl⟩
  | cons hattests _ ih =>
    rw [List.map_cons, List.map_cons, List.map_cons, List.map_cons, ih.1, ih.2, activityLeafOf, hattests.txId,
      hattests.version, hattests.mergeIdx]
    exact ⟨rfl, rfl⟩

theorem writeBlob_ne_nil (bytes : Bytes) : writeBlob bytes ≠ [] := by
  rw [writeBlob, leBytes]
  exact List.cons_ne_nil _ _

/-- What the journal of a batch says of its block. -/
structure BatchPins.Reports (pins : BatchPins) (b : Appended) (t : BatchProcessor.BatchTransition) : Prop where
  prevLaneTip : t.prevLaneTip = b.metadata.prevLaneTip
  prevLaneBlueScore : t.prevLaneBlueScore = b.metadata.prevLaneBlueScore
  newLaneTip : t.newLaneTip = b.metadata.laneTip
  newLaneBlueScore : t.newLaneBlueScore = b.metadata.laneBlueScore
  laneKey : t.laneKey = pins.laneKey
  covenantId : t.covenantId = pins.covenantId
  txImageId : t.txImageId = pins.txImageId
  absorbable : BatchAggregator.Absorbable pins.depositSpkHash t

namespace HonestBatch

variable {R : Type} {L : L1Lib R} {cfg : L1BridgeConfig} {H : Smt.Hasher Hash}
  {verifyTxJournal : Hash → Bytes → Bool} {pins : BatchPins} {b : Appended}

def inputs (hb : HonestBatch H L verifyTxJournal pins b) : BatchProcessor.Inputs :=
  pins.inputs hb.proof b.metadata hb.journals

theorem leaves_eq (hb : HonestBatch H L verifyTxJournal pins b) :
    hb.entries.map (activityLeafOf L.seq) = b.leaves L :=
  (attests_map hb.txs).1

theorem mergeOrdered (hb : HonestBatch H L verifyTxJournal pins b) (hthreaded : b.Threaded L cfg) :
    MergeOrdered none hb.entries := by
  refine ⟨nofun, ?_⟩
  have hordered := List.pairwise_map.mpr hthreaded.ordered
  rw [← (attests_map hb.txs).2] at hordered
  exact List.pairwise_map.mp hordered

theorem iter_eq (hb : HonestBatch H L verifyTxJournal pins b) :
    Journals.iter hb.inputs.batch.txJournals = hb.journals.map .ok :=
  Reader.items_flatMap writeBlob_ne_nil fun journal hmem _ => Reader.run_blob.mpr ⟨rfl, hb.fits journal hmem⟩

theorem txJournals_ne_nil (hb : HonestBatch H L verifyTxJournal pins b) (hactive : b.txs ≠ []) :
    hb.inputs.batch.txJournals ≠ [] := by
  intro hnil
  have hiter := hb.iter_eq
  rw [hnil] at hiter
  have hjournals : hb.journals = [] := List.map_eq_nil_iff.mp hiter.symm
  have hlen := hb.genuine.length_eq
  rw [hjournals, ← hb.txs.length_eq] at hlen
  exact hactive (List.length_eq_zero_iff.mp hlen.symm)

/-- The batch guest accepts the batch and ends on the block's lane state. -/
theorem verifyBatch_eq (hb : HonestBatch H L verifyTxJournal pins b) (hthreaded : b.Threaded L cfg)
    {id : Arr 20} (hlane : cfg.subnetworkId = some id) (hkey : pins.laneKey = L.laneKey id)
    (hactive : b.txs ≠ []) :
    ∃ v v', BatchProcessor.Verifier.new H hb.inputs = .ok v ∧
      v.verifyBatch verifyTxJournal L.seq = .ok (v', b.metadata.laneTip, b.metadata.laneBlueScore) ∧
      Stands v' hb.after hb.exits hb.deposits ∧ Pinned pins.depositSpkHash v'.depositSpkHash := by
  have ⟨v, hnew⟩ := hb.opens
  have hinputs : v.inputs = hb.inputs := BatchProcessor.Verifier.new_inputs hnew
  have hstands := new_stands hb.attested hnew
  have hcarry : Pinned v.inputs.depositSpkHash v.depositSpkHash := .inl (hstands.carried.zero.mpr nofun)
  have hgenuine : List.Forall₂ (fun bytes e => verifyTxJournal v.inputs.txImageId bytes = true ∧
      JournalEntries.decode bytes = .ok e) hb.journals hb.entries := by
    rw [hinputs]
    exact hb.genuine
  have hcovered : ∀ e ∈ hb.entries, Covers v.inputs.proof e ∧
      InContext (Batch.contextHash L.seq v.inputs.batch) e := by
    rw [hinputs]
    exact hb.covered
  have ⟨v', hverify, hstands', hcarry'⟩ := verifyBatch_of_run hstands hcarry
    (by rw [hinputs]; exact hb.iter_eq) (by rw [hinputs]; exact hb.txJournals_ne_nil hactive) hgenuine
    (hb.mergeOrdered hthreaded) hb.run hcovered (by rw [hinputs]; exact hb.pinned)
  have ⟨htip, hscore⟩ := hthreaded.active hlane hactive
  rw [hinputs] at hcarry'
  refine ⟨v, v', hnew, ?_, hstands', hcarry'⟩
  rw [hverify, hinputs, htip, hscore, hb.leaves_eq, ← hkey]
  rfl

theorem reports (hb : HonestBatch H L verifyTxJournal pins b) (hthreaded : b.Threaded L cfg) {id : Arr 20}
    (hlane : cfg.subnetworkId = some id) (hkey : pins.laneKey = L.laneKey id) (hactive : b.txs ≠ [])
    {journal : Bytes} (hmain : BatchProcessor.main H L.seq verifyTxJournal hb.inputs = .ok journal) :
    ∃ t, BatchProcessor.BatchTransition.refFromBytes journal = .ok t ∧ pins.Reports b t := by
  obtain ⟨v, v', hnew, hverify, hstands, hpinned⟩ := hb.verifyBatch_eq hthreaded hlane hkey hactive
  simp only [BatchProcessor.main, ok_bind_iff] at hmain
  obtain ⟨v₁, hnew₁, ⟨v₂, tip, score⟩, hverify₁, t, hcommit, hpure⟩ := hmain
  cases hnew.symm.trans hnew₁
  cases hverify.symm.trans hverify₁
  cases hpure
  have hinputs := (BatchProcessor.Verifier.verifyBatch_eq_ok hverify).1.trans
    (BatchProcessor.Verifier.new_inputs hnew)
  simp only [BatchProcessor.Verifier.commitBatchTransition, ok_bind_iff] at hcommit
  obtain ⟨⟨prevRoot, newRoot⟩, _, hpure⟩ := hcommit
  cases hpure
  refine ⟨_, BatchProcessor.BatchTransition.refFromBytes_encode _, ?_⟩
  rw [hinputs]
  refine ⟨rfl, rfl, rfl, rfl, rfl, rfl, rfl, ⟨hb.exits, ?_⟩, hpinned⟩
  change Exits.iter v'.exits.buf = _
  rw [hstands.exits, exits_iter_flatMap]

end HonestBatch

/-! ### Bundles -/

section

variable {R : Type} {L : L1Lib R} {cfg : L1BridgeConfig} {H : Smt.Hasher Hash}
  {verifyTxJournal : Hash → Bytes → Bool} {pins : BatchPins}

theorem checkLink_of_reports {b : Appended} {prev this : BatchProcessor.BatchTransition}
    (hreports : pins.Reports b this) (hkey : prev.laneKey = pins.laneKey) (hcovenant : prev.covenantId = pins.covenantId)
    (himage : prev.txImageId = pins.txImageId) (hstate : this.prevState = prev.newState)
    (htip : b.metadata.prevLaneTip = prev.newLaneTip) (hscore : b.metadata.prevLaneBlueScore = prev.newLaneBlueScore) :
    BatchAggregator.checkLink prev this = .ok () := by
  simp only [BatchAggregator.checkLink, ok_bind_iff, check_eq_ok, beq_iff_eq]
  refine ⟨(), by rw [hreports.laneKey, hkey], (), by rw [hreports.covenantId, hcovenant], (),
    by rw [hreports.txImageId, himage], (), hstate, (), by rw [hreports.prevLaneBlueScore, hscore], ?_⟩
  split
  · exact check_eq_ok.mpr (beq_iff_eq.mpr (by rw [hreports.prevLaneTip, htip]))
  · rfl

/-- Journals of blocks that continue each other pass every check between neighbours. -/
theorem links_of_continues {blocks : List Appended} {first : Appended} {t : BatchProcessor.BatchTransition}
    {ts : List BatchProcessor.BatchTransition} (hfirst : pins.Reports first t)
    (hreports : List.Forall₂ pins.Reports blocks ts)
    (hcontinues : Continues first.metadata.laneTip first.metadata.laneBlueScore blocks)
    (hstates : (t :: ts).IsChain fun prev this => this.prevState = prev.newState) :
    (t :: ts).IsChain fun prev this => BatchAggregator.checkLink prev this = .ok () := by
  induction hreports generalizing first t with
  | nil => exact List.isChain_singleton t
  | @cons b this blocks ts hreport _ ih =>
    have ⟨htip, hscore, hrest⟩ := hcontinues
    have ⟨hstate, hstates⟩ := List.isChain_cons_cons.mp hstates
    refine List.isChain_cons_cons.mpr ⟨?_, ih hreport hrest hstates⟩
    exact checkLink_of_reports hreport hfirst.laneKey hfirst.covenantId hfirst.txImageId hstate
      (htip.trans hfirst.newLaneTip.symm) (hscore.trans hfirst.newLaneBlueScore.symm)

/-- The journal is what the batch guest commits for an honest batch of the block. -/
def Journaled (H : Smt.Hasher Hash) (L : L1Lib R) (verifyTxJournal : Hash → Bytes → Bool) (pins : BatchPins)
    (b : Appended) (journal : Bytes) : Prop :=
  ∃ hb : HonestBatch H L verifyTxJournal pins b,
    BatchProcessor.main H L.seq verifyTxJournal hb.inputs = .ok journal

theorem exists_reports {id : Arr 20} (hlane : cfg.subnetworkId = some id) (hkey : pins.laneKey = L.laneKey id)
    {blocks : List Appended} {journals : List Bytes} (hthreaded : ∀ b ∈ blocks, b.Threaded L cfg)
    (hactive : ∀ b ∈ blocks, b.txs ≠ [])
    (hjournals : List.Forall₂ (Journaled H L verifyTxJournal pins) blocks journals) :
    ∃ ts, List.Forall₂ (fun journal t => BatchProcessor.BatchTransition.refFromBytes journal = .ok t) journals ts ∧
      List.Forall₂ pins.Reports blocks ts := by
  induction hjournals with
  | nil => exact ⟨[], .nil, .nil⟩
  | @cons b journal blocks journals hjournal _ ih =>
    have ⟨hb, hthreaded⟩ := List.forall_mem_cons.mp hthreaded
    have ⟨hbactive, hactive⟩ := List.forall_mem_cons.mp hactive
    have ⟨honest, hmain⟩ := hjournal
    have ⟨t, hdecode, hreport⟩ := honest.reports hb hlane hkey hbactive hmain
    have ⟨ts, hdecodes, hreports⟩ := ih hthreaded hactive
    exact ⟨t :: ts, .cons hdecode hdecodes, .cons hreport hreports⟩

theorem transitions_of_decoded {inputs : BatchAggregator.Inputs} {journals : List Bytes}
    {ts : List BatchProcessor.BatchTransition} (hiter : inputs.batchJournals.iter = journals.map .ok)
    (hdecodes : List.Forall₂ (fun journal t => BatchProcessor.BatchTransition.refFromBytes journal = .ok t)
      journals ts) : inputs.transitions = ts := by
  rw [BatchAggregator.Inputs.transitions, hiter]
  clear hiter
  induction hdecodes with
  | nil => rfl
  | @cons journal t journals ts hdecode _ ih =>
    have hhead : BatchAggregator.transitionOf (.ok journal) = some t := by
      rw [BatchAggregator.transitionOf, hdecode]
      rfl
    rw [List.map_cons, List.filterMap_cons_some hhead]
    exact congrArg (t :: ·) ih

theorem newLaneTip_map {blocks : List Appended} {ts : List BatchProcessor.BatchTransition}
    (h : List.Forall₂ pins.Reports blocks ts) :
    ts.map (fun t => t.newLaneTip) = blocks.map fun b => b.metadata.laneTip := by
  induction h with
  | nil => rfl
  | cons hreport _ ih => rw [List.map_cons, List.map_cons, hreport.newLaneTip, ih]

theorem absorbable_of_reports {blocks : List Appended} {ts : List BatchProcessor.BatchTransition}
    (h : List.Forall₂ pins.Reports blocks ts) :
    ∀ t ∈ ts, BatchAggregator.Absorbable pins.depositSpkHash t := by
  induction h with
  | nil => exact nofun
  | cons hreport _ ih => exact List.forall_mem_cons.mpr ⟨hreport.absorbable, ih⟩

/-- For consecutive blocks of any run of the bridge with a lane: the batch guest accepts
every honest active block and ends on the lane state the bridge has for it. The journals
of the active blocks, if their state roots chain, pass the aggregator and span the lane
tips from the first block to the last. -/
theorem honest_bundle_accepted {debug : Bool} {header : RpcHeader} {events : List (Event R)} {s : Session}
    (hrun : run (Session.step L cfg debug) (Session.start header) events = some s)
    {id : Arr 20} (hlane : cfg.subnetworkId = some id) (hkey : pins.laneKey = L.laneKey id)
    {first : Appended} {rest : List Appended} (hmem : ∀ b ∈ first :: rest, b ∈ s.worker.appended)
    (hconsecutive : (first :: rest).IsChain fun prev next => next.parent = prev.metadata)
    (hactive : ∃ b ∈ first :: rest, b.txs ≠ []) :
    (∀ b ∈ first :: rest, b.txs ≠ [] → ∀ hb : HonestBatch H L verifyTxJournal pins b,
      ∃ v v', BatchProcessor.Verifier.new H hb.inputs = .ok v ∧
        v.verifyBatch verifyTxJournal L.seq = .ok (v', b.metadata.laneTip, b.metadata.laneBlueScore)) ∧
    ∀ (verifyBatchJournal : Hash → Bytes → Bool) (acc : BatchAggregator.ExitAccumulator)
      (inputs : BatchAggregator.Inputs) (journals : List Bytes),
      List.Forall₂ (Journaled H L verifyTxJournal pins) ((first :: rest).filter Appended.active) journals →
      inputs.batchJournals.iter = journals.map .ok →
      (∀ journal ∈ journals, verifyBatchJournal inputs.batchImageId journal = true) →
      (inputs.transitions.IsChain fun prev this => this.prevState = prev.newState) → acc.Total →
      ∃ t folded, BatchAggregator.verifyBatches verifyBatchJournal acc inputs = .ok (t, folded) ∧
        t.prevLaneTip = first.metadata.prevLaneTip ∧
        folded.last.newLaneTip = ((first :: rest).getLast (List.cons_ne_nil _ _)).metadata.laneTip := by
  have hall := run_threaded hrun
  have hthreaded : ∀ b ∈ first :: rest, b.Threaded L cfg := fun b hb => hall b (hmem b hb)
  refine ⟨fun b hb hbactive honest => ?_, ?_⟩
  · have ⟨v, v', hnew, hverify, _⟩ := honest.verifyBatch_eq (hthreaded b hb) hlane hkey hbactive
    exact ⟨v, v', hnew, hverify⟩
  intro verifyBatchJournal acc inputs journals hjournals hiter hgenuine hstates total
  have hhead : ∀ b ∈ (first :: rest).head?, b.parent = first.parent := by
    intro b hb
    cases hb
    rfl
  have ⟨hcontinues, hend⟩ := active_continues hthreaded hhead hconsecutive
  have hbactive : ∀ b ∈ (first :: rest).filter Appended.active, b.txs ≠ [] := by
    intro b hb hnil
    have hnot := (List.mem_filter.mp hb).2
    rw [Appended.active, hnil] at hnot
    cases hnot
  have ⟨ts, hdecodes, hreports⟩ := exists_reports hlane hkey
    (fun b hb => hthreaded b (List.mem_of_mem_filter hb)) hbactive hjournals
  rw [transitions_of_decoded hiter hdecodes] at hstates
  have hdecoded : List.Forall₂ (fun journal t => verifyBatchJournal inputs.batchImageId journal = true ∧
      BatchProcessor.BatchTransition.refFromBytes journal = .ok t) journals ts :=
    (List.forall₂_and_left journals ts).mpr ⟨hgenuine, hdecodes⟩
  have htips := newLaneTip_map hreports
  have hne : (first :: rest).filter Appended.active ≠ [] := by
    have ⟨b, hb, hbtxs⟩ := hactive
    refine List.ne_nil_of_mem (List.mem_filter.mpr ⟨hb, ?_⟩)
    rw [Appended.active, Bool.not_eq_true', List.isEmpty_eq_false_iff]
    exact hbtxs
  generalize (first :: rest).filter Appended.active = actives at *
  match actives, ts, hreports with
  | a :: actives, t :: ts, .cons hfirst hreports =>
    have ⟨htip, _, hrest⟩ := hcontinues
    have hlinks := links_of_continues hfirst hreports hrest hstates
    have habsorb := absorbable_of_reports (.cons hfirst hreports)
    have ⟨folded, hverify, hlast⟩ := BatchAggregator.verifyBatches_of_links total hiter hdecoded hlinks habsorb
    refine ⟨t, folded, hverify, ?_, ?_⟩
    · rw [hfirst.prevLaneTip, htip, (hthreaded first List.mem_cons_self).prev.1]
    · have hnew := congrArg List.getLast? htips
      rw [List.getLast?_map, ← hlast, List.getLast?_map] at hnew
      rw [endTip, ← hnew, endTip, List.getLast?_eq_getLast_of_ne_nil (List.cons_ne_nil first rest)] at hend
      exact hend

end

/-! ### A lane that falls silent and restarts -/

namespace LaneSample

open Lane.Sample (mix nodeHasher txJournal verifyTxJournal journal)

def laneId : Arr 20 := Arr.fill 3

/-- A transaction of an unsupported version, told apart by its lock time. -/
def tx (k : Nat) : Tx := ⟨0, [], [], UInt64.ofNat k, laneId, 0, []⟩

def lib : L1Lib Tx := ⟨Lane.Sample.lib, fun _ => zeroHash, fun tx => mix [9, tx.lockTime.toNat], fun _ => none, .ok⟩

def config : L1BridgeConfig := { subnetworkId := some laneId, finalityDepth := 100 }

def seed : RpcHeader := ⟨zeroHash, 0, 0, 1, zeroHash⟩

def header (n : Nat) (blueScore daaScore timestamp : UInt64) : ChainBlockMetadata :=
  { hash := mix [n], blueScore := blueScore, daaScore := daaScore, timestamp := timestamp, seqCommit := mix [20, n] }

def chainBlock (h : ChainBlockMetadata) (txs : List Tx) (counted : txs.length < 2 ^ 32) : RpcChainBlock Tx :=
  ⟨⟨some h.hash, some h.blueScore, some h.daaScore, some h.timestamp, some h.seqCommit⟩, txs, counted⟩

def active : ChainBlockMetadata := header 1 10 1 5
def silent : ChainBlockMetadata := header 2 15 1 2
def restarting : ChainBlockMetadata := header 3 200 2 9

def events : List (Event Tx) :=
  [.fetch (.ok ⟨[], [chainBlock active [tx 1] (by decide), chainBlock silent [] (by decide),
    chainBlock restarting [tx 2] (by decide)]⟩) 0 []]

def appended (parentId : Nat) (parent block : ChainBlockMetadata) (txs : List Tx) : Appended :=
  ⟨parent, threaded lib config parentId parent block (laneTxs config 0 txs) none, laneTxs config 0 txs⟩

def first : Appended := appended 0 (.ofHeader seed) active [tx 1]
def second : Appended := appended 1 first.metadata silent []
def third : Appended := appended 2 second.metadata restarting [tx 2]

def pins : BatchPins := ⟨zeroHash, zeroHash, zeroHash, zeroHash⟩

def entries (k : Nat) : JournalEntries :=
  ⟨⟨0, mix [9, k], 0, none⟩, .error ErrorCode.versionIncompatible.toError⟩

/-- The honest batch of a block with one transaction. -/
def honestBatch (k : Nat) (b : Appended) (hverify : verifyTxJournal zeroHash (txJournal k) = true)
    (hdecode : JournalEntries.decode (txJournal k) = .ok (entries k)) (hfits : (txJournal k).length < 2 ^ 32)
    (htxs : List.Forall₂ (Attests lib) b.txs [entries k]) :
    HonestBatch nodeHasher lib verifyTxJournal pins b where
  proof := ⟨[], [], [], [], []⟩
  journals := [txJournal k]
  entries := [entries k]
  before _ := zeroHash
  after _ := zeroHash
  exits := []
  deposits := [zeroHash]
  opens := ⟨_, rfl⟩
  attested i m id hm _ := by
    have ⟨_, _, hmember, _⟩ := Smt.Proof.member_eq_ok hm
    cases hmember
  fits := List.forall_mem_singleton.mpr hfits
  genuine := .cons ⟨hverify, hdecode⟩ .nil
  txs := htxs
  covered := List.forall_mem_singleton.mpr ⟨nofun, nofun⟩
  run := .cons (.unsupported rfl rfl) .nil
  pinned := List.forall_mem_singleton.mpr (.inl rfl)

def honestFirst : HonestBatch nodeHasher lib verifyTxJournal pins first :=
  honestBatch 1 first (by decide +kernel) (by decide +kernel) (by decide +kernel) (.cons ⟨rfl, rfl, rfl⟩ .nil)

def honestThird : HonestBatch nodeHasher lib verifyTxJournal pins third :=
  honestBatch 2 third (by decide +kernel) (by decide +kernel) (by decide +kernel) (.cons ⟨rfl, rfl, rfl⟩ .nil)

def bundle : BatchAggregator.Inputs where
  batchImageId := zeroHash
  laneProof := ⟨zeroHash, zeroHash, zeroHash, ⟨zeroHash, .full, []⟩⟩
  batchJournals := writeBlob (journal honestFirst.inputs) ++ writeBlob (journal honestThird.inputs)

end LaneSample

open LaneSample in
set_option maxRecDepth 10000 in
theorem honest_bundle_restart :
    ∃ s, run (Session.step lib config true) (Session.start seed) events = some s ∧
      s.worker.appended = [first, second, third] ∧ third.metadata.laneExpired = true ∧
      ∃ t folded, BatchAggregator.verifyBatches (fun _ _ => true) BatchAggregator.noExits bundle = .ok (t, folded) ∧
        folded.last.newLaneTip = third.metadata.laneTip := by
  have hfacts : (run (Session.step lib config true) (Session.start seed) events).map
        (fun s => s.worker.appended) = some [first, second, third] ∧
      third.metadata.laneExpired = true ∧
      bundle.batchJournals.iter =
        [.ok (Lane.Sample.journal honestFirst.inputs), .ok (Lane.Sample.journal honestThird.inputs)] ∧
      BatchProcessor.main Lane.Sample.nodeHasher lib.seq Lane.Sample.verifyTxJournal honestFirst.inputs =
        .ok (Lane.Sample.journal honestFirst.inputs) ∧
      BatchProcessor.main Lane.Sample.nodeHasher lib.seq Lane.Sample.verifyTxJournal honestThird.inputs =
        .ok (Lane.Sample.journal honestThird.inputs) ∧
      bundle.transitions.IsChain fun prev this => this.prevState = prev.newState := by
    decide +kernel
  have ⟨hrun, hexpired, hiter, hfirst, hthird, hstates⟩ := hfacts
  have ⟨s, hs, happended⟩ := Option.map_eq_some_iff.mp hrun
  have hmem : ∀ b ∈ [first, second, third], b ∈ s.worker.appended := by
    rw [happended]
    exact fun _ hb => hb
  have hjournals : List.Forall₂ (Journaled Lane.Sample.nodeHasher lib Lane.Sample.verifyTxJournal pins)
      ([first, second, third].filter Appended.active) _ :=
    .cons ⟨honestFirst, hfirst⟩ (.cons ⟨honestThird, hthird⟩ .nil)
  have ⟨t, folded, hverify, _, htip⟩ := (honest_bundle_accepted hs rfl rfl hmem (by decide +kernel)
    ⟨first, List.mem_cons_self, by decide⟩).2 (fun _ _ => true) BatchAggregator.noExits bundle _ hjournals hiter
    (fun _ _ => rfl) hstates fun _ _ _ => ⟨(), rfl⟩
  exact ⟨s, hs, happended, hexpired, t, folded, hverify, htip⟩

end Vprogs.Bridge
