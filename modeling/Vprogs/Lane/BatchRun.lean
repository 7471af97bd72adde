import Vprogs.Lane.Sequential

/-!
What an accepted batch says about the state: every journal is a step of the
sequential interpreter, in merge order, and the batch's own journal reports the
run of them all.
-/
namespace Vprogs.Lane

open Abi BatchProcessor

def journalEntries (journal : Result Bytes) : Option JournalEntries :=
  match journal with
  | .ok bytes => (JournalEntries.decode bytes).toOption
  | .error _ => none

/-- The transactions of a batch, in the order their journals come in. -/
def BatchProcessor.Inputs.entries (inputs : Inputs) : List JournalEntries :=
  inputs.batch.txJournals.iter.filterMap journalEntries

/-- Every entry comes after `last` and the entries are strictly increasing. -/
def MergeOrdered (last : Option UInt32) (entries : List JournalEntries) : Prop :=
  (∀ prev ∈ last, ∀ e ∈ entries, prev < e.inputCommitment.mergeIdx) ∧
    entries.Pairwise fun a b => a.inputCommitment.mergeIdx < b.inputCommitment.mergeIdx

theorem MergeOrdered.cons {last : Option UInt32} {e : JournalEntries} {rest : List JournalEntries}
    (hcheck : Verifier.checkMergeIdx last e.inputCommitment.mergeIdx = .ok ())
    (h : MergeOrdered (some e.inputCommitment.mergeIdx) rest) : MergeOrdered last (e :: rest) := by
  have hafter := h.1 _ rfl
  refine ⟨fun prev hprev e' he' => ?_, List.pairwise_cons.mpr ⟨hafter, h.2⟩⟩
  cases hprev
  have hlt := of_decide_eq_true (check_eq_ok.mp hcheck)
  match List.mem_cons.mp he' with
  | .inl heq => exact heq ▸ hlt
  | .inr hmem => exact UInt32.lt_trans hlt (hafter e' hmem)

section Runs

variable {H : Smt.Hasher Hash} {L : SeqCommitLib} {keyedHash : KeyedHash} {hash : DataHash}
  {verifyTxJournal : Hash → Bytes → Bool}

theorem verifiedActivity_run (genuine : Genuine keyedHash hash verifyTxJournal)
    {contextHash : Hash} {v v' : Verifier} {last : Option UInt32} {leaves leaves' : List Hash}
    {journals : List (Result Bytes)} {S : State} {exits : List Exit} {deposits : List Hash}
    (h : Stands v S exits deposits)
    (hok : Verifier.verifiedActivity verifyTxJournal L contextHash v last leaves journals =
      .ok (v', leaves')) :
    ∃ entries S' more others, journals.map journalEntries = entries.map some ∧
      MergeOrdered last entries ∧ TxRun S entries S' more others ∧
      Stands v' S' (exits ++ more) (deposits ++ others) := by
  induction journals generalizing v last leaves S exits deposits with
  | nil =>
    cases hok
    exact ⟨[], S, [], [], rfl, ⟨fun _ _ => nofun, .nil⟩, .nil, by simpa using h⟩
  | cons journal rest ih =>
    simp only [Verifier.verifiedActivity, Verifier.verifiedJournal, ok_bind_iff, expectOk_eq_ok,
      check_eq_ok] at hok
    obtain ⟨e, ⟨bytes, hjournal, _, haccepted, e', hdecode, _, hmerge, _, hshape, hpure⟩, v₁, hv₁,
      hrest⟩ := hok
    cases hpure
    obtain ⟨mid, more, deposit, hstep, hstands⟩ := applyEntries_step h hshape
      (fun exec hexec => genuine.distinct haccepted hdecode hexec) hv₁
    obtain ⟨entries, S', more', others, hjournals, hordered, hrun, hstands'⟩ := ih hstands hrest
    refine ⟨e :: entries, S', more ++ more', deposit :: others, ?_, .cons hmerge hordered,
      .cons hstep hrun, by simpa using hstands'⟩
    rw [List.map_cons, List.map_cons, hjournals, hjournal, journalEntries, hdecode]
    rfl

/-- The members of the state proof are the values of the state. -/
def TruePre (H : Smt.Hasher Hash) (inputs : BatchProcessor.Inputs) (S : State) : Prop :=
  ∀ (i : Nat) (m : Smt.Member Hash) (id : ResourceId), inputs.proof.member i = .ok m →
    m.key = keyOfId id → m.valueHash H = S id

/-- A batch leads from one state to another by running its transactions, and its
journal reports that run: the roots of its resources in both states, the exits
and the deposit address. -/
structure BatchRun (H : Smt.Hasher Hash) (inputs : BatchProcessor.Inputs) (t : BatchTransition)
    (S S' : State) (exits : List Exit) (deposits : List Hash) : Prop where
  journals : inputs.batch.txJournals.iter.map journalEntries = inputs.entries.map some
  ordered : inputs.entries.Pairwise fun a b => a.inputCommitment.mergeIdx < b.inputCommitment.mergeIdx
  run : TxRun S inputs.entries S' exits deposits
  roots : ∃ values : Nat → Hash,
    inputs.proof.computeRoots H values = .ok (t.prevState, t.newState) ∧
      ∀ (i : Nat) (m : Smt.Member Hash) (id : ResourceId), inputs.proof.member i = .ok m →
        m.key = keyOfId id → values i = S' id
  exits : t.exits.iter = exits.map .ok
  deposit : Carried deposits t.depositSpkHash

theorem new_stands {inputs : BatchProcessor.Inputs} {v : Verifier} {S : State}
    (htrue : TruePre H inputs S) (h : Verifier.new H inputs = .ok v) : Stands v S [] [] := by
  simp only [Verifier.new, ok_bind_iff, expect_eq_ok] at h
  have ⟨_, hsorted, values, hvalues, hpure⟩ := h
  cases hpure
  refine ⟨⟨hsorted, fun i m id hm hkey => ?_⟩, rfl, Carried.nil⟩
  have ⟨_, _, hmember, _⟩ := Smt.Proof.member_eq_ok hm
  have hlt := (List.getElem?_eq_some_iff.mp hmember).1
  have ⟨value, hvalue, hread⟩ := mapM_getElem? hvalues (List.getElem?_range hlt)
  have ⟨m', hm', hpure⟩ := ok_bind_iff.mp hread
  rw [expect_eq_ok, hm] at hm'
  cases hm'
  cases hpure
  rw [hvalue, htrue i m id hm hkey]

theorem verifyBatch_run (genuine : Genuine keyedHash hash verifyTxJournal)
    {v v' : Verifier} {newLaneTip : Hash} {score : UInt64} {S : State} (h : Stands v S [] [])
    (hok : v.verifyBatch verifyTxJournal L = .ok (v', newLaneTip, score)) :
    ∃ entries S' exits deposits,
      v.inputs.batch.txJournals.iter.map journalEntries = entries.map some ∧
      MergeOrdered none entries ∧ TxRun S entries S' exits deposits ∧
      Stands v' S' exits deposits := by
  unfold Verifier.verifyBatch at hok
  by_cases hempty : v.inputs.batch.txJournals.isEmpty
  · rw [if_pos hempty] at hok
    cases hok
    have hiter : v.inputs.batch.txJournals.iter = [] := by
      rw [List.isEmpty_iff.mp hempty]
      rfl
    exact ⟨[], S, [], [], by rw [hiter]; rfl, ⟨fun _ => nofun, .nil⟩, .nil, h⟩
  · rw [if_neg hempty] at hok
    have ⟨⟨v₁, leaves⟩, hactivity, hrest⟩ := ok_bind_iff.mp hok
    have ⟨_, _, hpure⟩ := ok_bind_iff.mp hrest
    cases hpure
    exact verifiedActivity_run genuine h hactivity

theorem main_run (genuine : Genuine keyedHash hash verifyTxJournal)
    {inputs : BatchProcessor.Inputs} {bytes : Bytes} {S : State} (htrue : TruePre H inputs S)
    (hok : BatchProcessor.main H L verifyTxJournal inputs = .ok bytes) :
    ∃ t S' exits deposits, BatchTransition.refFromBytes bytes = .ok t ∧
      BatchRun H inputs t S S' exits deposits := by
  simp only [BatchProcessor.main, ok_bind_iff] at hok
  obtain ⟨v, hnew, ⟨v', newLaneTip, score⟩, hverify, t, hcommit, hpure⟩ := hok
  cases hpure
  have hinputs := Verifier.new_inputs hnew
  have hinputs' := (Verifier.verifyBatch_eq_ok hverify).1.trans hinputs
  obtain ⟨entries, S', exits, deposits, hjournals, hordered, hrun, hstands⟩ :=
    verifyBatch_run genuine (new_stands htrue hnew) hverify
  rw [hinputs] at hjournals
  have hentries : inputs.entries = entries := by
    have h := congrArg (List.filterMap id) hjournals
    rw [List.filterMap_map, List.filterMap_map] at h
    exact h.trans List.filterMap_some
  simp only [Verifier.commitBatchTransition, ok_bind_iff, expect_eq_ok] at hcommit
  obtain ⟨⟨prevRoot, newRoot⟩, hroots, hpure⟩ := hcommit
  cases hpure
  refine ⟨_, S', exits, deposits, BatchTransition.refFromBytes_encode _, hentries ▸ hjournals,
    hentries ▸ hordered.2, hentries ▸ hrun, ⟨_, hinputs' ▸ hroots, fun i m id hm hkey => ?_⟩, ?_,
    hstands.carried⟩
  · have := hstands.tracks.latest i m id (hinputs' ▸ hm) hkey
    rw [List.getD_eq_getElem?_getD, this]
    rfl
  · change Exits.iter v'.exits.buf = _
    rw [hstands.exits]
    exact exits_iter_flatMap exits

end Runs

end Vprogs.Lane
