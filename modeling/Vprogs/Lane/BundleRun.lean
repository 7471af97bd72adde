import Vprogs.Lane.BundleBinding
import Vprogs.Lane.BatchRun

/-!
What an accepted bundle says about the state: the runs of its batches follow one
another, their exits are fed to the accumulator in that order, and one deposit
address stands for all of them.
-/
namespace Vprogs.Lane

open Abi BatchProcessor

section Runs

variable {H : Smt.Hasher Hash} {L : SeqCommitLib} {keyedHash : KeyedHash} {hash : DataHash}
  {verifyTxJournal : Hash → Bytes → Bool}

/-- The batches of a bundle, each from the state the one before left. -/
inductive BundleRun (H : Smt.Hasher Hash) : State → List BatchProcessor.Inputs →
    List BatchTransition → State → List Exit → List Hash → Prop
  | nil {S : State} : BundleRun H S [] [] S [] []
  | cons {S mid S' : State} {inputs : BatchProcessor.Inputs} {batches : List BatchProcessor.Inputs}
      {t : BatchTransition} {ts : List BatchTransition} {exits more : List Exit}
      {deposits others : List Hash} (batch : BatchRun H inputs t S mid exits deposits)
      (rest : BundleRun H mid batches ts S' more others) :
      BundleRun H S (inputs :: batches) (t :: ts) S' (exits ++ more) (deposits ++ others)

theorem BundleRun.run {S S' : State} {batches : List BatchProcessor.Inputs} {ts : List BatchTransition}
    {exits : List Exit} {deposits : List Hash} (h : BundleRun H S batches ts S' exits deposits) :
    TxRun S (batches.flatMap (·.entries)) S' exits deposits := by
  induction h with
  | nil => exact .nil
  | cons batch rest ih =>
    rw [List.flatMap_cons]
    exact batch.run.append ih

/-- Every batch's proof has the values that the batches before it left. -/
def TruePreStates (H : Smt.Hasher Hash) (S : State) (batches : List BatchProcessor.Inputs) : Prop :=
  ∀ before inputs after, batches = before ++ inputs :: after →
    ∀ S' exits deposits, TxRun S (before.flatMap (·.entries)) S' exits deposits →
      TruePre H inputs S'

theorem TruePreStates.head {S : State} {inputs : BatchProcessor.Inputs}
    {batches : List BatchProcessor.Inputs} (h : TruePreStates H S (inputs :: batches)) :
    TruePre H inputs S :=
  h [] inputs batches rfl S [] [] .nil

theorem TruePreStates.tail {S mid : State} {inputs : BatchProcessor.Inputs}
    {batches : List BatchProcessor.Inputs} {exits : List Exit} {deposits : List Hash}
    (h : TruePreStates H S (inputs :: batches)) (hrun : TxRun S inputs.entries mid exits deposits) :
    TruePreStates H mid batches := by
  intro before inputs' after heq S' more others hbefore
  refine h (inputs :: before) inputs' after (by rw [heq]; rfl) S' (exits ++ more)
    (deposits ++ others) ?_
  rw [List.flatMap_cons]
  exact hrun.append hbefore

/-- Exits fed to the accumulator one by one. -/
def feed (acc : BatchAggregator.ExitAccumulator) (state : acc.State) (exits : List Exit) :
    Guest acc.State :=
  exits.foldlM (fun s e => acc.addExit s e.dest e.amount) state

theorem streamExits_eq_feed (acc : BatchAggregator.ExitAccumulator) (state : acc.State) (exits : List Exit)
    : BatchAggregator.streamExits acc state (exits.map .ok) = feed acc state exits := by
  induction exits generalizing state with
  | nil => rfl
  | cons e exits ih =>
    rw [List.map_cons, BatchAggregator.streamExits, feed, List.foldlM_cons]
    exact bind_congr fun next => ih next

theorem feed_append {acc : BatchAggregator.ExitAccumulator} {s s' s'' : acc.State}
    {exits more : List Exit} (h : feed acc s exits = .ok s') (h' : feed acc s' more = .ok s'') :
    feed acc s (exits ++ more) = .ok s'' := by
  rw [feed, List.foldlM_append]
  exact ok_bind_iff.mpr ⟨s', h, h'⟩

/-- One batch taken into the fold. -/
theorem absorb_run {acc : BatchAggregator.ExitAccumulator} {inputs : BatchProcessor.Inputs}
    {t : BatchTransition} {S S' : State} {exits : List Exit} {deposits : List Hash} {state : acc.State}
    {carry : Hash} {s : BatchAggregator.Folded acc} (batch : BatchRun H inputs t S S' exits deposits)
    (h : BatchAggregator.absorb acc state carry t = .ok s) :
    s.last = t ∧ feed acc state exits = .ok s.exits ∧
      ∀ before, Carried before carry → Carried (before ++ deposits) s.depositSpkHash := by
  simp only [BatchAggregator.absorb, ok_bind_iff] at h
  obtain ⟨state', hexits, carry', hcarry, hpure⟩ := h
  cases hpure
  rw [batch.exits, streamExits_eq_feed] at hexits
  exact ⟨rfl, hexits, fun before hbefore => hbefore.append batch.deposit hcarry⟩

theorem verifiedJournal_run (genuine : Genuine keyedHash hash verifyTxJournal)
    {verifyBatchJournal : Hash → Bytes → Bool} {imageId : Hash} {inputs : BatchProcessor.Inputs}
    {entry : Result Bytes} {bytes : Bytes} {msg : String} {t : BatchTransition} {S : State}
    (htrue : TruePre H inputs S)
    (hcommitted : ∃ bytes, BatchProcessor.main H L verifyTxJournal inputs = .ok bytes ∧ entry = .ok bytes)
    (hentry : (expectOk entry msg : Guest Bytes) = .ok bytes)
    (hverified : BatchAggregator.verifiedJournal verifyBatchJournal imageId bytes = .ok t) :
    ∃ S' exits deposits, BatchRun H inputs t S S' exits deposits := by
  have ⟨bytes', hmain, heq⟩ := hcommitted
  rw [expectOk_eq_ok, heq] at hentry
  cases hentry
  have ⟨t', S', exits, deposits, hread, hrun⟩ := main_run genuine htrue hmain
  simp only [BatchAggregator.verifiedJournal, ok_bind_iff, expectOk_eq_ok, hread] at hverified
  have ⟨_, _, heq⟩ := hverified
  cases heq
  exact ⟨S', exits, deposits, hrun⟩

theorem foldBatches_run (genuine : Genuine keyedHash hash verifyTxJournal)
    {verifyBatchJournal : Hash → Bytes → Bool} {acc : BatchAggregator.ExitAccumulator}
    {imageId : Hash} {s s' : BatchAggregator.Folded acc} {batches : List BatchProcessor.Inputs}
    {journals : List (Result Bytes)} {S : State} (htrue : TruePreStates H S batches)
    (hcommitted : List.Forall₂ (fun inputs journal => ∃ bytes,
      BatchProcessor.main H L verifyTxJournal inputs = .ok bytes ∧ journal = .ok bytes)
      batches journals)
    (hok : BatchAggregator.foldBatches verifyBatchJournal acc imageId s journals = .ok s') :
    ∃ ts S' exits deposits, journals.map BatchAggregator.transitionOf = ts.map some ∧
      BundleRun H S batches ts S' exits deposits ∧
      s'.last = (s.last :: ts).getLast (List.cons_ne_nil _ _) ∧
      feed acc s.exits exits = .ok s'.exits ∧
      ∀ before, Carried before s.depositSpkHash →
        Carried (before ++ deposits) s'.depositSpkHash := by
  induction hcommitted generalizing s S with
  | nil =>
    cases hok
    exact ⟨[], S, [], [], rfl, .nil, rfl, rfl, fun before h => by rwa [List.append_nil]⟩
  | cons hjournal _ ih =>
    simp only [BatchAggregator.foldBatches, ok_bind_iff] at hok
    obtain ⟨bytes, hentry, t, hverified, _, _, s₁, habsorb, hrest⟩ := hok
    obtain ⟨mid, exits, deposits, hbatch⟩ :=
      verifiedJournal_run genuine htrue.head hjournal hentry hverified
    obtain ⟨hlast, hfeed, hcarried⟩ := absorb_run hbatch habsorb
    obtain ⟨ts, S', more, others, hts, hrun, hlast', hfeed', hcarried'⟩ :=
      ih (htrue.tail hbatch.run) hrest
    refine ⟨t :: ts, S', exits ++ more, deposits ++ others, ?_, .cons hbatch hrun, ?_,
      feed_append hfeed hfeed', fun before h => ?_⟩
    · rw [List.map_cons, hts, BatchAggregator.transitionOf_verified hentry hverified,
        List.map_cons]
    · rw [hlast', hlast, List.getLast_cons (List.cons_ne_nil _ _)]
    · rw [← List.append_assoc]
      exact hcarried' _ (hcarried before h)

/-- What a bundle's settlement statement reports of a run of its batches. -/
structure Settles (acc : BatchAggregator.ExitAccumulator) (ts : List BatchTransition)
    (exits : List Exit) (deposits : List Hash) (st : BatchAggregator.StateTransition) : Prop where
  first : ts.head?.map (·.prevState) = some st.prevState
  last : ts.getLast?.map (·.newState) = some st.newState
  exits : ∃ state, feed acc acc.init exits = .ok state ∧ acc.finalize state = .ok st.permissionSpkHash
  deposit : Carried deposits st.depositSpkHash

theorem bundle_run (genuine : Genuine keyedHash hash verifyTxJournal)
    {verifyBatchJournal : Hash → Bytes → Bool} {acc : BatchAggregator.ExitAccumulator}
    {batches : List BatchProcessor.Inputs} {bundle : BatchAggregator.Inputs}
    {st : BatchAggregator.StateTransition} {S : State} (htrue : TruePreStates H S batches)
    (hcommitted : Committed H L verifyTxJournal batches bundle)
    (hok : BatchAggregator.main L verifyBatchJournal acc bundle = .ok st) :
    ∃ S' exits deposits, BundleRun H S batches bundle.transitions S' exits deposits ∧
      Settles acc bundle.transitions exits deposits st := by
  simp only [BatchAggregator.main, BatchAggregator.verifyBatches, ok_bind_iff] at hok
  obtain ⟨⟨first, s⟩, hverify, hcommit⟩ := hok
  rw [Committed] at hcommitted
  cases hiter : bundle.batchJournals.iter with
  | nil =>
    rw [hiter] at hverify
    cases hverify
  | cons entry rest =>
    rw [hiter] at hverify hcommitted
    cases hcommitted with
    | cons hjournal hothers =>
      simp only [ok_bind_iff] at hverify
      obtain ⟨bytes, hentry, t, hverified, s₀, habsorb, s', hfold, hpure⟩ := hverify
      cases hpure
      obtain ⟨mid, exits, deposits, hbatch⟩ :=
        verifiedJournal_run genuine htrue.head hjournal hentry hverified
      obtain ⟨hlast, hfeed, hcarried⟩ := absorb_run hbatch habsorb
      obtain ⟨ts, S', more, others, hts, hrun, hlast', hfeed', hcarried'⟩ :=
        foldBatches_run genuine (htrue.tail hbatch.run) hothers hfold
      have htransitions : bundle.transitions = first :: ts := by
        apply transitions_eq
        rw [hiter, List.map_cons, hts,
          BatchAggregator.transitionOf_verified hentry hverified, List.map_cons]
      simp only [BatchAggregator.commitStateTransition, ok_bind_iff] at hcommit
      obtain ⟨_, _, permission, hfinal, hst⟩ := hcommit
      cases hst
      rw [htransitions]
      refine ⟨S', exits ++ more, deposits ++ others, .cons hbatch hrun, rfl, ?_,
        ⟨s.exits, feed_append hfeed hfeed', hfinal⟩, ?_⟩
      · rw [hlast] at hlast'
        rw [List.getLast?_eq_some_getLast (List.cons_ne_nil _ _), ← hlast']
        rfl
      · exact hcarried' _ (hcarried [] Carried.nil)

/-- Accepted batches and bundles mean sequential execution. -/
theorem accepted_runs_sequentially (genuine : Genuine keyedHash hash verifyTxJournal) :
    (∀ inputs bytes S, TruePre H inputs S →
      BatchProcessor.main H L verifyTxJournal inputs = .ok bytes →
      ∃ t S' exits deposits, BatchTransition.refFromBytes bytes = .ok t ∧
        BatchRun H inputs t S S' exits deposits) ∧
    ∀ verifyBatchJournal acc batches bundle st S, TruePreStates H S batches →
      Committed H L verifyTxJournal batches bundle →
      BatchAggregator.main L verifyBatchJournal acc bundle = .ok st →
      ∃ S' exits deposits, BundleRun H S batches bundle.transitions S' exits deposits ∧
        TxRun S (batches.flatMap (·.entries)) S' exits deposits ∧
        Settles acc bundle.transitions exits deposits st := by
  refine ⟨fun inputs bytes S htrue hok => main_run genuine htrue hok, ?_⟩
  intro verifyBatchJournal acc batches bundle st S htrue hcommitted hok
  have ⟨S', exits, deposits, hrun, hsettles⟩ := bundle_run genuine htrue hcommitted hok
  exact ⟨S', exits, deposits, hrun, hrun.run, hsettles⟩

end Runs

namespace Sample

def counterId : ResourceId := Arr.fill 7

def dataHash : DataHash := fun data => mix [10, data.length]

/-- Appends one byte to every resource, pays an exit and records a deposit. -/
def counterHandler : TransactionHandler := fun _ _ _ resources exits _ => do
  let exits ← lift (exits.emit (.pubKey zeroHash) 7)
  pure ⟨exits, mix [11], resources.map fun r => r.resize (r.data.length + 1)⟩

def counterBuffer (k : Nat) (data : Bytes) : Bytes :=
  leBytes 2 1 ++ (zeroHash.val ++ (leBytes 4 0 ++ ((mix [1, k, k, 10 * k]).val ++
    (Transaction.encode (encodeMany [⟨counterId, .write⟩] AccessMetadata.encode) [] ++
      Resource.encode 0 data))))

def unsupportedBuffer : Bytes := leBytes 2 0 ++ (zeroHash.val ++ leBytes 4 1)

def counterJournal (buffer : Bytes) : Bytes :=
  match processTransaction (fun _ _ => zeroHash) dataHash counterHandler buffer with
  | .ok (journal, _) => journal
  | .error _ => []

def counterBuffers : List Bytes := [counterBuffer 1 [0], unsupportedBuffer, counterBuffer 2 [0, 0]]

def counterVerify (_ : Hash) (journal : Bytes) : Bool :=
  counterBuffers.any fun buffer => journal == counterJournal buffer

theorem counterVerify_genuine : Genuine (fun _ _ => zeroHash) dataHash counterVerify := by
  intro imageId journal haccepted
  have ⟨buffer, hmem, heq⟩ := List.any_eq_true.mp haccepted
  have hok : ∀ buffer ∈ counterBuffers,
      (processTransaction (fun _ _ => zeroHash) dataHash counterHandler buffer).toBool = true := by
    decide +kernel
  have hrun := hok buffer hmem
  rw [eq_of_beq heq, counterJournal]
  match h : processTransaction (fun _ _ => zeroHash) dataHash counterHandler buffer with
  | .error _ => rw [h] at hrun; cases hrun
  | .ok (journal, out) => exact ⟨counterHandler, buffer, out, h⟩

/-- A batch that proves the counter's present value. -/
def counterBatch (k : Nat) (data : Bytes) (prevLaneTip : Hash) (prevLaneBlueScore : UInt64)
    (buffers : List Bytes) : BatchProcessor.Inputs where
  txImageId := zeroHash
  covenantId := zeroHash
  depositSpkHash := mix [11]
  laneKey := zeroHash
  proof := ⟨[keyOfId counterId], [⟨0, 0, dataHash data⟩], [], [], [.present 0]⟩
  batch :=
    { blueScore := UInt64.ofNat (10 * k)
      daaScore := UInt64.ofNat k
      prevTimestamp := UInt64.ofNat k
      prevSeqCommit := zeroHash
      prevLaneTip := prevLaneTip
      prevLaneBlueScore := prevLaneBlueScore
      laneExpired := false
      txJournals := buffers.flatMap fun buffer => writeBlob (counterJournal buffer) }

/-- A successful transaction and one of an unsupported version. -/
def firstBatch : BatchProcessor.Inputs :=
  counterBatch 1 [0] zeroHash 0 [counterBuffer 1 [0], unsupportedBuffer]

def secondBatch : BatchProcessor.Inputs :=
  counterBatch 2 [0, 0] (firstBatch.batch.activity.tip lib zeroHash zeroHash) 10
    [counterBuffer 2 [0, 0]]

def batchJournal (inputs : BatchProcessor.Inputs) : Bytes :=
  (BatchProcessor.main nodeHasher lib counterVerify inputs).toOption.getD []

def counterBundle : BatchAggregator.Inputs where
  batchImageId := zeroHash
  laneProof := ⟨zeroHash, zeroHash, zeroHash, ⟨zeroHash, .full, []⟩⟩
  batchJournals := writeBlob (batchJournal firstBatch) ++ writeBlob (batchJournal secondBatch)

def exitList : BatchAggregator.ExitAccumulator where
  State := List Exit
  init := []
  addExit := fun exits dest amount => .ok (exits ++ [⟨dest, amount⟩])
  finalize := fun exits => .ok (mix (exits.map (·.amount.toNat)))

def counterState (data : Bytes) : State := fun id => if id = counterId then dataHash data else zeroHash

theorem counterBatch_true {k : Nat} {data : Bytes} {prevLaneTip : Hash} {score : UInt64}
    {buffers : List Bytes} {S : State} (hS : S counterId = dataHash data) :
    TruePre nodeHasher (counterBatch k data prevLaneTip score buffers) S := by
  intro i m id hm hkey
  have ⟨_, _, hmember, _⟩ := Smt.Proof.member_eq_ok hm
  match i with
  | 0 =>
    have hm' : (counterBatch k data prevLaneTip score buffers).proof.member 0 =
        .ok ⟨keyOfId counterId, ⟨0, 0, dataHash data⟩, false⟩ := rfl
    rw [hm] at hm'
    cases hm'
    rw [← keyOfId_injective hkey, hS]
    rfl
  | i + 1 => cases hmember

theorem firstBatch_entries : firstBatch.entries =
    [⟨⟨1, zeroHash, 0, some ⟨mix [1, 1, 1, 10], [⟨0, counterId, dataHash [0]⟩]⟩⟩,
      .success (Exit.encode ⟨.pubKey zeroHash, 7⟩) (mix [11])
        (OutputResourceCommitment.toBytes (.changed (dataHash [0, 0])))⟩,
      ⟨⟨0, zeroHash, 1, none⟩, .error ErrorCode.versionIncompatible.toError⟩] := by
  decide +kernel

theorem firstBatch_leaves {S S' : State} {exits : List Exit} {deposits : List Hash}
    (h : TxRun S firstBatch.entries S' exits deposits) : S' counterId = dataHash [0, 0] := by
  have hitems : OutputResourceCommitment.decode.items
      (OutputResourceCommitment.toBytes (.changed (dataHash [0, 0]))) =
      [.ok (.changed (dataHash [0, 0]))] := by decide +kernel
  rw [firstBatch_entries] at h
  cases h with
  | cons hstep hrest =>
    cases hstep with
    | success hexec houtput _ _ houtputs _ =>
      cases hexec
      cases houtput
      rw [hitems] at houtputs
      have ⟨output, others, heq, hhead, htail⟩ := List.map_eq_cons_iff.mp houtputs.symm
      cases heq
      cases hhead
      cases hrest with
      | cons hstep hrest =>
        cases hrest
        cases hstep with
        | success hexec => cases hexec
        | failed hexec => cases hexec
        | unsupported => exact Function.update_self counterId (dataHash [0, 0]) S
    | failed _ houtput => cases houtput
    | unsupported hexec => cases hexec

theorem counterBatches_true : TruePreStates nodeHasher (counterState [0]) [firstBatch, secondBatch] := by
  intro before inputs after heq S' exits deposits hrun
  match before with
  | [] =>
    cases heq
    cases hrun
    exact counterBatch_true rfl
  | [first] =>
    cases heq
    rw [List.flatMap_singleton] at hrun
    exact counterBatch_true (firstBatch_leaves hrun)
  | first :: second :: before =>
    have hlen := congrArg List.length heq
    simp at hlen

theorem counterBundle_committed :
    Committed nodeHasher lib counterVerify [firstBatch, secondBatch] counterBundle := by
  have hiter : counterBundle.batchJournals.iter =
      [.ok (batchJournal firstBatch), .ok (batchJournal secondBatch)] := by decide +kernel
  have hfirst : BatchProcessor.main nodeHasher lib counterVerify firstBatch =
      .ok (batchJournal firstBatch) := by decide +kernel
  have hsecond : BatchProcessor.main nodeHasher lib counterVerify secondBatch =
      .ok (batchJournal secondBatch) := by decide +kernel
  rw [Committed, hiter]
  exact .cons ⟨_, hfirst, rfl⟩ (.cons ⟨_, hsecond, rfl⟩ .nil)

/-- The two batches are accepted and run in sequence. -/
theorem counterBundle_runs :
    (∃ t S' exits deposits, BatchTransition.refFromBytes (batchJournal firstBatch) = .ok t ∧
      BatchRun nodeHasher firstBatch t (counterState [0]) S' exits deposits) ∧
    ∃ st S' exits deposits,
      BatchAggregator.main lib (fun _ _ => true) exitList counterBundle = .ok st ∧
      TxRun (counterState [0]) (firstBatch.entries ++ secondBatch.entries) S' exits deposits ∧
      Settles exitList counterBundle.transitions exits deposits st := by
  have hall := accepted_runs_sequentially (H := nodeHasher) (L := lib) counterVerify_genuine
  have hfirst : BatchProcessor.main nodeHasher lib counterVerify firstBatch =
      .ok (batchJournal firstBatch) := by decide +kernel
  have hok : (BatchAggregator.main lib (fun _ _ => true) exitList counterBundle).toBool = true := by
    decide +kernel
  refine ⟨hall.1 firstBatch (batchJournal firstBatch) (counterState [0]) (counterBatch_true rfl) hfirst, ?_⟩
  match h : BatchAggregator.main lib (fun _ _ => true) exitList counterBundle with
  | .error _ => rw [h] at hok; cases hok
  | .ok st =>
    have ⟨S', exits, deposits, _, hrun, hsettles⟩ := hall.2 (fun _ _ => true) exitList
      [firstBatch, secondBatch] counterBundle st (counterState [0]) counterBatches_true
      counterBundle_committed h
    exact ⟨st, S', exits, deposits, rfl, by simpa using hrun, hsettles⟩

end Sample

end Vprogs.Lane
