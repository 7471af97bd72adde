import Vprogs.Lane.BatchAggregator

/-!
What an accepted guest run establishes: the lane tips a batch commits to, as a
function of its inputs, and the chain of batch transitions behind a bundle.
-/
namespace Vprogs.Lane

open Abi

namespace BatchProcessor

/-- The lane transaction a journal attests. -/
def journalTx (journal : Result Bytes) : Option LaneTx :=
  match journal with
  | .ok bytes =>
    match JournalEntries.decode bytes with
    | .ok entries => some ⟨entries.inputCommitment.txId, entries.inputCommitment.version,
        entries.inputCommitment.mergeIdx⟩
    | .error _ => none
  | .error _ => none

def Batch.activity (batch : Batch) : Activity where
  context := ⟨batch.prevTimestamp, batch.daaScore, batch.blueScore⟩
  txs := batch.txJournals.iter.filterMap journalTx

/-- What the batch hashes its activity on top of. -/
def Batch.parentRef (batch : Batch) : Hash :=
  if batch.laneExpired then batch.prevSeqCommit else batch.prevLaneTip

/-- The hashes a batch run computes for the lane. -/
def Inputs.queries (L : SeqCommitLib) (inputs : Inputs) : List HashQuery :=
  if inputs.batch.txJournals.isEmpty then []
  else inputs.batch.activity.queries L inputs.batch.parentRef inputs.laneKey

namespace Verifier

variable {L : SeqCommitLib} {verifyTxJournal : Hash → Bytes → Bool}

theorem verifiedJournal_eq_ok {inputs : Inputs} {journal : Result Bytes} {last : Option UInt32}
    {entries : JournalEntries} (h : verifiedJournal verifyTxJournal inputs journal last = .ok entries) :
    ∃ bytes, journal = .ok bytes ∧ JournalEntries.decode bytes = .ok entries := by
  simp only [verifiedJournal, ok_bind_iff, expectOk_eq_ok, check_eq_ok] at h
  obtain ⟨bytes, hj, _, _, entries', hd, _, _, _, _, he⟩ := h
  cases he
  exact ⟨bytes, hj, hd⟩

theorem applyResources_inputs {v v' : Verifier} {rs : List InputResourceCommitment}
    {outputs left : Option (List (Result OutputResourceCommitment))}
    (h : v.applyResources outputs rs = .ok (v', left)) : v'.inputs = v.inputs := by
  induction rs generalizing v outputs with
  | nil => cases h; rfl
  | cons r rs ih =>
    simp only [applyResources, ok_bind_iff] at h
    have ⟨idx, _, h⟩ := h
    match outputs with
    | none => exact ih h
    | some items =>
      simp only [ok_bind_iff] at h
      have ⟨_, _, output, _, h⟩ := h
      match output with
      | .changed hash =>
        have hin := ih h
        exact hin
      | .unchanged => exact ih h

theorem applyEntries_inputs {v v' : Verifier} {contextHash : Hash} {entries : JournalEntries}
    (h : v.applyEntries contextHash entries = .ok v') : v'.inputs = v.inputs := by
  unfold applyEntries at h
  split at h
  · next execCtx _ =>
    unfold applyExecution at h
    split at h
    · simp only [ok_bind_iff] at h
      have ⟨_, _, _, _, _, _, ⟨v'', _⟩, hr, _, _, he⟩ := h
      cases he
      have hin := applyResources_inputs hr
      exact hin
    · simp only [ok_bind_iff] at h
      have ⟨_, _, ⟨v'', _⟩, hr, he⟩ := h
      cases he
      exact applyResources_inputs hr
  · cases h
    rfl

/-- The loop adds one activity leaf per journal, each for the transaction the
journal attests. -/
theorem verifiedActivity_eq_ok {contextHash : Hash} {v v' : Verifier} {last : Option UInt32}
    {leaves leaves' : List Hash} {journals : List (Result Bytes)}
    (h : verifiedActivity verifyTxJournal L contextHash v last leaves journals = .ok (v', leaves')) :
    v'.inputs = v.inputs ∧
      leaves' = leaves ++ (journals.filterMap journalTx).map fun tx => L.hash tx.query := by
  induction journals generalizing v last leaves with
  | nil =>
    cases h
    exact ⟨rfl, by simp⟩
  | cons journal rest ih =>
    simp only [verifiedActivity, ok_bind_iff] at h
    have ⟨entries, hj, v'', hv, h⟩ := h
    have ⟨bytes, hjb, hd⟩ := verifiedJournal_eq_ok hj
    have htx : journalTx journal = some ⟨entries.inputCommitment.txId,
        entries.inputCommitment.version, entries.inputCommitment.mergeIdx⟩ := by
      rw [hjb]
      simp only [journalTx, hd]
    have ⟨hin, hl⟩ := ih h
    refine ⟨hin.trans (applyEntries_inputs hv), ?_⟩
    rw [hl, List.filterMap_cons, htx, List.append_assoc]
    rfl

theorem new_inputs {H : Smt.Hasher Hash} {inputs : Inputs} {v : Verifier}
    (h : new H inputs = .ok v) : v.inputs = inputs := by
  simp only [new, ok_bind_iff] at h
  have ⟨_, _, _, _, h⟩ := h
  cases h
  rfl

/-- The lane tip a batch ends on: its own previous tip when it is empty, and its
activity on top of its reference otherwise. -/
theorem verifyBatch_eq_ok {v v' : Verifier} {newLaneTip : Hash} {score : UInt64}
    (h : v.verifyBatch verifyTxJournal L = .ok (v', newLaneTip, score)) :
    v'.inputs = v.inputs ∧ newLaneTip =
      if v.inputs.batch.txJournals.isEmpty then v.inputs.batch.prevLaneTip
      else v.inputs.batch.activity.tip L v.inputs.batch.parentRef v.inputs.laneKey := by
  unfold verifyBatch at h
  split
  · next hempty =>
    rw [if_pos hempty] at h
    cases h
    exact ⟨rfl, rfl⟩
  · next hempty =>
    rw [if_neg hempty] at h
    simp only [ok_bind_iff] at h
    have ⟨⟨v'', leaves⟩, ha, _, _, h⟩ := h
    have ⟨hin, hl⟩ := verifiedActivity_eq_ok ha
    cases h
    refine ⟨hin, ?_⟩
    rw [hl, hin]
    rfl

end Verifier

/-- What a committed batch journal says about the batch's inputs. -/
theorem main_eq_ok {H : Smt.Hasher Hash} {L : SeqCommitLib} {verifyTxJournal : Hash → Bytes → Bool}
    {inputs : Inputs} {bytes : Bytes} (h : main H L verifyTxJournal inputs = .ok bytes) :
    ∃ t, BatchTransition.refFromBytes bytes = .ok t ∧ t.prevLaneTip = inputs.batch.prevLaneTip ∧
      (t.laneExpired = 0 ↔ inputs.batch.laneExpired = false) ∧
      t.newLaneTip = if inputs.batch.txJournals.isEmpty then inputs.batch.prevLaneTip
        else inputs.batch.activity.tip L inputs.batch.parentRef inputs.laneKey := by
  simp only [main, ok_bind_iff] at h
  have ⟨v, hv, ⟨v', newLaneTip, score⟩, hb, t, hc, he⟩ := h
  cases he
  have ⟨hin, htip⟩ := Verifier.verifyBatch_eq_ok hb
  have hinputs := Verifier.new_inputs hv
  simp only [Verifier.commitBatchTransition, ok_bind_iff] at hc
  have ⟨⟨prevRoot, newRoot⟩, _, hc⟩ := hc
  cases hc
  rw [hinputs] at hin htip
  refine ⟨_, BatchTransition.refFromBytes_encode _, ?_, ?_, htip⟩
  · rw [hin]
  · simp only [hin]
    cases inputs.batch.laneExpired <;> simp

end BatchProcessor

namespace BatchAggregator

open BatchProcessor

def transitionOf (journal : Result Bytes) : Option BatchTransition :=
  match journal with
  | .ok bytes => (BatchTransition.refFromBytes bytes).toOption
  | .error _ => none

/-- The batch transitions a bundle is made of. -/
def Inputs.transitions (inputs : Inputs) : List BatchTransition :=
  inputs.batchJournals.iter.filterMap transitionOf

/-- The hashes a bundle run computes for the chain's commitment. -/
def Inputs.queries (L : SeqCommitLib) (inputs : Inputs) : List HashQuery :=
  match inputs.transitions.getLast? with
  | none => []
  | some last =>
    let leaf := L.smtLeafHash last.newLaneTip last.newLaneBlueScore
    let root := (L.computeRoot inputs.laneProof.laneSmtProof last.laneKey (some leaf)).getD zeroHash
    let activityRoot := L.activityRootHash inputs.laneProof.inactivityShortcut root
    let stateRoot := L.seqStateRoot activityRoot inputs.laneProof.payloadAndCtxDigest
    [.smtLeaf last.newLaneTip last.newLaneBlueScore,
      .activityRoot inputs.laneProof.inactivityShortcut root,
      .seqStateRoot activityRoot inputs.laneProof.payloadAndCtxDigest,
      .seqCommit inputs.laneProof.prevSeqCommit stateRoot]

variable {verifyBatchJournal : Hash → Bytes → Bool} {acc : ExitAccumulator}

theorem checkLink_eq_ok {prev this : BatchTransition} (h : checkLink prev this = .ok ()) :
    this.laneExpired = 0 → this.prevLaneTip = prev.newLaneTip := by
  intro hz
  simp only [checkLink, ok_bind_iff, check_eq_ok] at h
  obtain ⟨_, _, _, _, _, _, _, _, _, _, h⟩ := h
  rw [if_pos hz, check_eq_ok] at h
  exact eq_of_beq h

theorem transitionOf_verified {imageId : Hash} {entry : Result Bytes} {bytes : Bytes} {msg : String}
    {t : BatchTransition} (hentry : (expectOk entry msg : Guest Bytes) = .ok bytes)
    (h : verifiedJournal verifyBatchJournal imageId bytes = .ok t) : transitionOf entry = some t := by
  simp only [verifiedJournal, ok_bind_iff, expectOk_eq_ok, check_eq_ok] at h hentry
  obtain ⟨_, _, hd⟩ := h
  rw [hentry, transitionOf, hd]
  rfl

theorem absorb_last {exits : acc.State} {carry : Hash} {this : BatchTransition} {s : Folded acc}
    (h : absorb acc exits carry this = .ok s) : s.last = this := by
  simp only [absorb, ok_bind_iff] at h
  have ⟨_, _, _, _, h⟩ := h
  cases h
  rfl

/-- The fold accepts a chain: every transition is linked to the one before. -/
theorem foldBatches_eq_ok {imageId : Hash} {s s' : Folded acc} {journals : List (Result Bytes)}
    (h : foldBatches verifyBatchJournal acc imageId s journals = .ok s') :
    ∃ ts, journals.map transitionOf = ts.map some ∧
      (s.last :: ts).IsChain (fun prev this => checkLink prev this = .ok ()) ∧
      s'.last = (s.last :: ts).getLast (List.cons_ne_nil _ _) := by
  induction journals generalizing s with
  | nil =>
    cases h
    exact ⟨[], rfl, List.isChain_singleton _, rfl⟩
  | cons entry rest ih =>
    simp only [foldBatches, ok_bind_iff] at h
    have ⟨bytes, hentry, this, ht, _, hlink, s'', habs, h⟩ := h
    have ⟨ts, hts, hchain, hlast⟩ := ih h
    rw [absorb_last habs] at hchain hlast
    refine ⟨this :: ts, ?_, List.isChain_cons_cons.mpr ⟨hlink, hchain⟩, ?_⟩
    · rw [List.map_cons, hts, transitionOf_verified hentry ht, List.map_cons]
    · rw [hlast, List.getLast_cons (List.cons_ne_nil _ _)]

theorem main_eq_ok {L : SeqCommitLib} {inputs : Inputs} {st : StateTransition}
    (h : main L verifyBatchJournal acc inputs = .ok st) :
    ∃ first ts, inputs.batchJournals.iter.map transitionOf = (first :: ts).map some ∧
      (first :: ts).IsChain (fun prev this => checkLink prev this = .ok ()) ∧
      st.prevLaneTip = first.prevLaneTip ∧
      st.newLaneTip = ((first :: ts).getLast (List.cons_ne_nil _ _)).newLaneTip := by
  simp only [main, verifyBatches, ok_bind_iff] at h
  have ⟨⟨first, s⟩, hv, hc⟩ := h
  split at hv
  · cases hv
  · next entry rest hiter =>
    simp only [ok_bind_iff] at hv
    have ⟨bytes, hentry, first', ht, s₀, habs, s', hfold, he⟩ := hv
    cases he
    have ⟨ts, hts, hchain, hlast⟩ := foldBatches_eq_ok hfold
    rw [absorb_last habs] at hchain hlast
    simp only [commitStateTransition, ok_bind_iff] at hc
    have ⟨_, _, _, _, hst⟩ := hc
    cases hst
    refine ⟨first, ts, ?_, hchain, rfl, ?_⟩
    · rw [hiter, List.map_cons, hts, transitionOf_verified hentry ht, List.map_cons]
    · rw [← hlast]

end BatchAggregator

end Vprogs.Lane
