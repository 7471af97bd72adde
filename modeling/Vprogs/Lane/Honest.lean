import Vprogs.Lane.BatchRun

/-!
Honest batches are accepted. If the journals of a block's lane transactions describe
a sequential run from the state the proof attests, and the deposit addresses they record
are the declared one, then none of the batch guest's assertions fails. With the
soundness of the guest this makes its acceptance exact.
-/
namespace Vprogs.Lane

open Abi BatchProcessor

/-- No deposit address is recorded, or the pinned one is. -/
def Pinned (pin d : Hash) : Prop := d = zeroHash ∨ d = pin

/-- The transaction declares each resource once, and the proof has a member for it
under the index the transaction names. -/
def Covers (proof : Smt.Proof Hash) (entries : JournalEntries) : Prop :=
  ∀ exec, entries.inputCommitment.executionContext = some exec →
    (exec.resources.map (·.resourceId)).Nodup ∧
    ∀ r ∈ exec.resources, ∃ m, proof.member r.resourceIndex.toNat = .ok m ∧ m.key = keyOfId r.resourceId

/-- An executed transaction ran in the context of the block. -/
def InContext (contextHash : Hash) (entries : JournalEntries) : Prop :=
  ∀ exec, entries.inputCommitment.executionContext = some exec → exec.contextHash = contextHash

variable {pin : Hash}

theorem carryDepositHash_of_pinned (what : String) {carry d : Hash} (hcarry : Pinned pin carry)
    (hd : Pinned pin d) : ∃ carry', carryDepositHash what carry d = .ok carry' ∧ Pinned pin carry' := by
  by_cases hzero : d = zeroHash
  · exact ⟨carry, if_pos hzero, hcarry⟩
  · have hpin : d = pin := hd.resolve_left hzero
    by_cases hempty : carry = zeroHash
    · exact ⟨d, by rw [carryDepositHash, if_neg hzero, if_pos hempty], hd⟩
    · have hsame : carry = d := (hcarry.resolve_left hempty).trans hpin.symm
      refine ⟨carry, ?_, hcarry⟩
      rw [carryDepositHash, if_neg hzero, if_neg hempty, hsame, beq_self_eq_true]
      rfl

section batch

variable {v : Verifier} {S S' : State} {exits more : List Exit} {deposits others : List Hash}

theorem verifiedBatchIdx_of_declared (h : Tracks v S) {r : InputResourceCommitment} {m : Smt.Member Hash}
    (hm : v.inputs.proof.member r.resourceIndex.toNat = .ok m) (hkey : m.key = keyOfId r.resourceId)
    (hdeclared : S r.resourceId = r.hash) : v.verifiedBatchIdx r = .ok r.resourceIndex.toNat := by
  have hlatest := h.latest _ m r.resourceId hm hkey
  simp only [Verifier.verifiedBatchIdx, ok_bind_iff, orPanic_eq_ok, expect_eq_ok, check_eq_ok]
  exact ⟨_, hlatest, (), by rw [hdeclared, beq_self_eq_true], m, hm, (), by rw [hkey, beq_self_eq_true], rfl⟩

/-- A failed transaction's declared values are found. -/
theorem applyResources_none_of_declared (h : Tracks v S) {rs : List InputResourceCommitment}
    (hmembers : ∀ r ∈ rs, ∃ m, v.inputs.proof.member r.resourceIndex.toNat = .ok m ∧ m.key = keyOfId r.resourceId)
    (hdeclared : ∀ r ∈ rs, S r.resourceId = r.hash) : v.applyResources none rs = .ok (v, none) := by
  induction rs with
  | nil => rfl
  | cons r rs ih =>
    have ⟨⟨m, hm, hkey⟩, hmembers⟩ := List.forall_mem_cons.mp hmembers
    have ⟨hr, hdeclared⟩ := List.forall_mem_cons.mp hdeclared
    rw [Verifier.applyResources, verifiedBatchIdx_of_declared h hm hkey hr]
    exact ih hmembers hdeclared

/-- A successful transaction's are found and overwritten, with one output for each. -/
theorem applyResources_some_of_declared (h : Tracks v S) {rs : List InputResourceCommitment}
    {outputs : List OutputResourceCommitment} (hlength : outputs.length = rs.length)
    (hdistinct : (rs.map (·.resourceId)).Nodup)
    (hmembers : ∀ r ∈ rs, ∃ m, v.inputs.proof.member r.resourceIndex.toNat = .ok m ∧ m.key = keyOfId r.resourceId)
    (hdeclared : ∀ r ∈ rs, S r.resourceId = r.hash) :
    ∃ v', v.applyResources (some (outputs.map .ok)) rs = .ok (v', some []) ∧
      Tracks v' (writeOutputs S (rs.zip outputs)) ∧ v'.exits = v.exits ∧ v'.depositSpkHash = v.depositSpkHash := by
  induction rs generalizing v S outputs with
  | nil =>
    cases List.length_eq_zero_iff.mp hlength
    exact ⟨v, rfl, h, rfl, rfl⟩
  | cons r rs ih =>
    obtain ⟨⟨m, hm, hkey⟩, hmembers⟩ := List.forall_mem_cons.mp hmembers
    obtain ⟨hr, hdeclared⟩ := List.forall_mem_cons.mp hdeclared
    obtain ⟨hnew, hdistinct⟩ := List.nodup_cons.mp hdistinct
    have hidx := verifiedBatchIdx_of_declared h hm hkey hr
    cases outputs with
    | nil => cases hlength
    | cons output outputs =>
      have hlength' := Nat.succ.inj hlength
      rw [Verifier.applyResources, hidx]
      cases output with
      | unchanged => exact ih h hlength' hdistinct hmembers hdeclared
      | changed hash =>
        refine ih (h.set hidx hash) hlength' hdistinct hmembers fun r' hr' => ?_
        have hne : r'.resourceId ≠ r.resourceId := by
          intro heq
          exact hnew (List.mem_map.mpr ⟨r', hr', heq⟩)
        rw [Function.update_of_ne hne]
        exact hdeclared r' hr'

theorem emitExits_map_ok (sink : ExitSink) (exits : List Exit) :
    Verifier.emitExits sink (exits.map .ok) = .ok ⟨sink.buf ++ exits.flatMap Exit.encode⟩ := by
  induction exits generalizing sink with
  | nil => rw [List.flatMap_nil, List.append_nil]; rfl
  | cons e exits ih =>
    change Verifier.emitExits ⟨sink.buf ++ e.encode⟩ (exits.map .ok) = _
    rw [ih, List.flatMap_cons, List.append_assoc]

theorem checkShape_of_step {entries : JournalEntries} {deposit : Hash} (h : TxStep S entries S' more deposit) :
    Verifier.checkShape entries = .ok () := by
  cases h with
  | success hexec | failed hexec => rw [Verifier.checkShape, hexec]
  | unsupported hexec houtput =>
    rw [Verifier.checkShape, hexec, houtput]
    exact check_eq_ok.mpr (beq_self_eq_true _)

/-- A step of the interpreter is accepted by the loop body. -/
theorem applyEntries_of_step {contextHash : Hash} {entries : JournalEntries} {deposit : Hash}
    (h : Stands v S exits deposits) (hcarry : Pinned pin v.depositSpkHash)
    (hstep : TxStep S entries S' more deposit) (hcovers : Covers v.inputs.proof entries)
    (hcontext : InContext contextHash entries) (hdeposit : Pinned pin deposit) :
    ∃ v', v.applyEntries contextHash entries = .ok v' ∧ Stands v' S' (exits ++ more) (deposits ++ [deposit]) ∧
      Pinned pin v'.depositSpkHash := by
  cases hstep with
  | unsupported hexec _ => exact ⟨v, by rw [Verifier.applyEntries, hexec], h.skip, hcarry⟩
  | @failed exec e hexec houtput hdeclared =>
    have hresources := applyResources_none_of_declared h.tracks (hcovers exec hexec).2 hdeclared
    refine ⟨v, ?_, h.skip, hcarry⟩
    rw [Verifier.applyEntries, hexec]
    change v.applyExecution contextHash exec entries.outputCommitment = _
    rw [houtput]
    simp only [Verifier.applyExecution, ok_bind_iff, check_eq_ok]
    exact ⟨(), by rw [hcontext exec hexec, beq_self_eq_true], (v, none), hresources, rfl⟩
  | @success exec log _ resources _ outputs hexec houtput hdeclared hexits houtputs hlength =>
    have ⟨carry, hok, hcarry'⟩ := carryDepositHash_of_pinned "batch" hcarry hdeposit
    let emitted : ExitSink := ⟨v.exits.buf ++ more.flatMap Exit.encode⟩
    have htracks : Tracks { v with depositSpkHash := carry, exits := emitted } S :=
      ⟨h.tracks.sorted, h.tracks.latest⟩
    have ⟨v', hresources, htracks', hsink, hsame⟩ := applyResources_some_of_declared htracks hlength
      (hcovers exec hexec).1 (hcovers exec hexec).2 hdeclared
    refine ⟨v', ?_, ⟨htracks', ?_, ?_⟩, hsame ▸ hcarry'⟩
    · rw [Verifier.applyEntries, hexec]
      change v.applyExecution contextHash exec entries.outputCommitment = _
      rw [houtput]
      simp only [Verifier.applyExecution, ok_bind_iff, check_eq_ok]
      exact ⟨(), by rw [hcontext exec hexec, beq_self_eq_true], carry, hok, emitted,
        by rw [hexits, emitExits_map_ok], (v', some []), by rw [houtputs]; exact hresources, (), rfl, rfl⟩
    · rw [hsink, List.flatMap_append, ← h.exits]
    · rw [hsame]
      exact h.carried.append (Carried.singleton deposit) hok

theorem MergeOrdered.uncons {last : Option UInt32} {e : JournalEntries} {rest : List JournalEntries}
    (h : MergeOrdered last (e :: rest)) :
    Verifier.checkMergeIdx last e.inputCommitment.mergeIdx = .ok () ∧
      MergeOrdered (some e.inputCommitment.mergeIdx) rest := by
  have ⟨hafter, hordered⟩ := List.pairwise_cons.mp h.2
  refine ⟨?_, fun prev hprev e' he' => ?_, hordered⟩
  · match last with
    | none => rfl
    | some prev => exact check_eq_ok.mpr (decide_eq_true (h.1 prev rfl e List.mem_cons_self))
  · cases hprev
    exact hafter e' he'

section

variable {L : SeqCommitLib} {verifyTxJournal : Hash → Bytes → Bool}

/-- The activity leaf of a transaction. -/
def activityLeafOf (L : SeqCommitLib) (e : JournalEntries) : Hash :=
  L.activityLeaf e.inputCommitment.txId e.inputCommitment.version e.inputCommitment.mergeIdx

/-- A run of the interpreter is accepted by the loop. -/
theorem verifiedActivity_of_run {contextHash : Hash} {last : Option UInt32} {leaves : List Hash}
    {journals : List Bytes} {entries : List JournalEntries} (h : Stands v S exits deposits)
    (hcarry : Pinned pin v.depositSpkHash)
    (hjournals : List.Forall₂ (fun bytes e => verifyTxJournal v.inputs.txImageId bytes = true ∧
      JournalEntries.decode bytes = .ok e) journals entries)
    (hordered : MergeOrdered last entries) (hrun : TxRun S entries S' more others)
    (hcovers : ∀ e ∈ entries, Covers v.inputs.proof e ∧ InContext contextHash e)
    (hpinned : ∀ d ∈ others, Pinned pin d) :
    ∃ v', Verifier.verifiedActivity verifyTxJournal L contextHash v last leaves (journals.map .ok) =
        .ok (v', leaves ++ entries.map (activityLeafOf L)) ∧
      Stands v' S' (exits ++ more) (deposits ++ others) ∧ Pinned pin v'.depositSpkHash := by
  induction hrun generalizing v last leaves exits deposits journals with
  | nil =>
    cases hjournals
    rw [List.append_nil, List.append_nil]
    exact ⟨v, by rw [List.map_nil, List.map_nil, List.append_nil]; rfl, h, hcarry⟩
  | @cons _ mid _ e rest exits' more' deposit deposits' hstep _ ih =>
    match journals, hjournals with
    | bytes :: journals, .cons ⟨hverify, hdecode⟩ hjournals =>
      obtain ⟨hmerge, hordered⟩ := hordered.uncons
      obtain ⟨⟨hcover, hcontext⟩, hcovers⟩ := List.forall_mem_cons.mp hcovers
      obtain ⟨hdeposit, hpinned⟩ := List.forall_mem_cons.mp hpinned
      obtain ⟨v₁, hv₁, hstands, hcarry₁⟩ := applyEntries_of_step h hcarry hstep hcover hcontext hdeposit
      have hinputs := Verifier.applyEntries_inputs hv₁
      have hentries : Verifier.verifiedJournal verifyTxJournal v.inputs (.ok bytes) last = .ok e := by
        simp only [Verifier.verifiedJournal, ok_bind_iff, expectOk_eq_ok, check_eq_ok]
        exact ⟨bytes, rfl, (), hverify, e, hdecode, (), hmerge, (), checkShape_of_step hstep, rfl⟩
      obtain ⟨v', hactivity, hstands', hcarry'⟩ : ∃ v', Verifier.verifiedActivity verifyTxJournal L contextHash v₁
            (some e.inputCommitment.mergeIdx) (leaves ++ [activityLeafOf L e]) (journals.map .ok) =
            .ok (v', leaves ++ [activityLeafOf L e] ++ rest.map (activityLeafOf L)) ∧
          Stands v' _ (exits ++ exits' ++ more') (deposits ++ [deposit] ++ deposits') ∧
          Pinned pin v'.depositSpkHash :=
        ih hstands hcarry₁ (hinputs ▸ hjournals) hordered (hinputs ▸ hcovers) hpinned
      refine ⟨v', ?_, ?_, hcarry'⟩
      · rw [List.map_cons, Verifier.verifiedActivity, hentries]
        change (do
          let v ← v.applyEntries contextHash e
          _) = _
        rw [hv₁]
        change Verifier.verifiedActivity verifyTxJournal L contextHash v₁ _
          (leaves ++ [activityLeafOf L e]) (journals.map .ok) = _
        rw [hactivity, List.append_assoc]
        rfl
      · rw [List.append_assoc, List.append_assoc] at hstands'
        exact hstands'

theorem assertDeclaredDepositHash_of_pinned {carry : Hash} (h : Pinned pin carry) :
    assertDeclaredDepositHash carry pin = .ok () := by
  rw [assertDeclaredDepositHash]
  split
  · rfl
  · next hne => exact check_eq_ok.mpr (beq_iff_eq.mpr (h.resolve_left hne))

/-- The context hash of a batch's block. -/
def Batch.contextHash (L : SeqCommitLib) (batch : Batch) : Hash :=
  L.mergesetContextHash ⟨batch.prevTimestamp, batch.daaScore, batch.blueScore⟩

/-- An honest batch is verified, and ends on the lane tip of its activity. -/
theorem verifyBatch_of_run {journals : List Bytes} {entries : List JournalEntries} (h : Stands v S [] [])
    (hcarry : Pinned v.inputs.depositSpkHash v.depositSpkHash)
    (hiter : v.inputs.batch.txJournals.iter = journals.map .ok) (hsome : v.inputs.batch.txJournals ≠ [])
    (hjournals : List.Forall₂ (fun bytes e => verifyTxJournal v.inputs.txImageId bytes = true ∧
      JournalEntries.decode bytes = .ok e) journals entries)
    (hordered : MergeOrdered none entries) (hrun : TxRun S entries S' exits deposits)
    (hcovers : ∀ e ∈ entries, Covers v.inputs.proof e ∧ InContext (Batch.contextHash L v.inputs.batch) e)
    (hpinned : ∀ d ∈ deposits, Pinned v.inputs.depositSpkHash d) :
    ∃ v', v.verifyBatch verifyTxJournal L = .ok (v', L.laneTipNext
        { parentRef := v.inputs.batch.parentRef
          laneKey := v.inputs.laneKey
          activityDigest := L.activityDigest (entries.map (activityLeafOf L))
          contextHash := Batch.contextHash L v.inputs.batch }, v.inputs.batch.blueScore) ∧
      Stands v' S' exits deposits ∧ Pinned v.inputs.depositSpkHash v'.depositSpkHash := by
  have ⟨v', hactivity, hstands, hcarry'⟩ : ∃ v', Verifier.verifiedActivity verifyTxJournal L
        (Batch.contextHash L v.inputs.batch) v none [] (journals.map .ok) =
        .ok (v', [] ++ entries.map (activityLeafOf L)) ∧ Stands v' S' ([] ++ exits) ([] ++ deposits) ∧
      Pinned v.inputs.depositSpkHash v'.depositSpkHash :=
    verifiedActivity_of_run h hcarry hjournals hordered hrun hcovers hpinned
  have hinputs := (Verifier.verifiedActivity_eq_ok hactivity).1
  rw [← hiter] at hactivity
  refine ⟨v', ?_, hstands, hcarry'⟩
  rw [Verifier.verifyBatch, if_neg (fun hempty => hsome (List.isEmpty_iff.mp hempty))]
  simp only [ok_bind_iff]
  refine ⟨(v', _), hactivity, (), ?_, ?_⟩
  · rw [hinputs]
    exact assertDeclaredDepositHash_of_pinned hcarry'
  · rw [hinputs]
    rfl

end

end batch

/-! ### The bundle -/

namespace BatchAggregator

variable {acc : ExitAccumulator} {verifyBatchJournal : Hash → Bytes → Bool}

/-- Every exit can be added. -/
def ExitAccumulator.Total (acc : ExitAccumulator) : Prop :=
  ∀ state dest amount, ∃ state', acc.addExit state dest amount = .ok state'

theorem streamExits_map_ok (total : acc.Total) (state : acc.State) (exits : List Exit) :
    ∃ state', streamExits acc state (exits.map .ok) = .ok state' := by
  induction exits generalizing state with
  | nil => exact ⟨state, rfl⟩
  | cons e exits ih =>
    have ⟨next, hnext⟩ := total state e.dest e.amount
    have ⟨last, hlast⟩ := ih next
    refine ⟨last, ?_⟩
    change (do
      let exits' ← acc.addExit state e.dest e.amount
      streamExits acc exits' (exits.map .ok)) = _
    rw [hnext]
    exact hlast

/-- A batch transition the aggregator can absorb: its exits decode and its deposit
address is the pinned one, if there is one. -/
def Absorbable (pin : Hash) (t : BatchTransition) : Prop :=
  (∃ exits : List Exit, t.exits.iter = exits.map .ok) ∧ Pinned pin t.depositSpkHash

theorem absorb_of_absorbable (total : acc.Total) (state : acc.State) {carry : Hash} (hcarry : Pinned pin carry)
    {t : BatchTransition} (ht : Absorbable pin t) :
    ∃ s : Folded acc, absorb acc state carry t = .ok s ∧ s.last = t ∧ Pinned pin s.depositSpkHash := by
  have ⟨⟨exits, hexits⟩, hpinned⟩ := ht
  have ⟨state', hstream⟩ := streamExits_map_ok total state exits
  have ⟨carry', hok, hcarry'⟩ := carryDepositHash_of_pinned "bundle" hcarry hpinned
  refine ⟨⟨t, state', carry'⟩, ?_, rfl, hcarry'⟩
  simp only [absorb, ok_bind_iff]
  exact ⟨state', by rw [hexits]; exact hstream, carry', hok, rfl⟩

variable {imageId : Hash} {bytes : List Bytes} {ts : List BatchTransition}

/-- Journals that are genuine and chain up are folded to the last of them. -/
theorem foldBatches_of_links (total : acc.Total) {s : Folded acc} (hcarry : Pinned pin s.depositSpkHash)
    (hjournals : List.Forall₂ (fun bytes t => verifyBatchJournal imageId bytes = true ∧
      BatchTransition.refFromBytes bytes = .ok t) bytes ts)
    (hlinks : (s.last :: ts).IsChain fun prev this => checkLink prev this = .ok ())
    (hts : ∀ t ∈ ts, Absorbable pin t) :
    ∃ s' : Folded acc, foldBatches verifyBatchJournal acc imageId s (bytes.map .ok) = .ok s' ∧
      some s'.last = (s.last :: ts).getLast? := by
  induction hjournals generalizing s with
  | nil => exact ⟨s, rfl, rfl⟩
  | @cons journal t bytes ts hjournal _ ih =>
    have ⟨hlink, hlinks⟩ := List.isChain_cons_cons.mp hlinks
    have ⟨ht, hts⟩ := List.forall_mem_cons.mp hts
    have ⟨s₁, habsorb, hlast, hcarry₁⟩ := absorb_of_absorbable total s.exits hcarry ht
    have ⟨s', hfold, hlast'⟩ := ih hcarry₁ (hlast.symm ▸ hlinks) hts
    refine ⟨s', ?_, ?_⟩
    · simp only [List.map_cons, foldBatches, verifiedJournal, ok_bind_iff, check_eq_ok, expectOk_eq_ok]
      exact ⟨journal, rfl, t, ⟨(), hjournal⟩, (), hlink, s₁, habsorb, hfold⟩
    · rw [hlast', hlast, List.getLast?_cons_cons]

theorem verifyBatches_of_links (total : acc.Total) {inputs : Inputs} {first : BatchTransition}
    (hiter : inputs.batchJournals.iter = bytes.map .ok)
    (hjournals : List.Forall₂ (fun bytes t => verifyBatchJournal inputs.batchImageId bytes = true ∧
      BatchTransition.refFromBytes bytes = .ok t) bytes (first :: ts))
    (hlinks : (first :: ts).IsChain fun prev this => checkLink prev this = .ok ())
    (hts : ∀ t ∈ first :: ts, Absorbable pin t) :
    ∃ s : Folded acc, verifyBatches verifyBatchJournal acc inputs = .ok (first, s) ∧
      some s.last = (first :: ts).getLast? := by
  match bytes, hjournals with
  | journal :: bytes, .cons hjournal hjournals =>
    have ⟨hfirst, hts⟩ := List.forall_mem_cons.mp hts
    have ⟨s₁, habsorb, hlast, hcarry₁⟩ := absorb_of_absorbable total acc.init (.inl rfl) hfirst
    have ⟨s, hfold, hlast'⟩ := foldBatches_of_links total hcarry₁ hjournals (hlast.symm ▸ hlinks) hts
    refine ⟨s, ?_, hlast ▸ hlast'⟩
    rw [verifyBatches, hiter, List.map_cons]
    simp only [verifiedJournal, ok_bind_iff, check_eq_ok, expectOk_eq_ok]
    exact ⟨journal, rfl, first, ⟨(), hjournal⟩, s₁, habsorb, s, hfold, rfl⟩

end BatchAggregator

end Vprogs.Lane
