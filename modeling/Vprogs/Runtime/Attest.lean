import Vprogs.Abi.InputRoundTrip
import Vprogs.Abi.JournalRoundTrip
import Vprogs.L1.Tx
import Vprogs.Lane.BatchProcessor
import Vprogs.Runtime.Effects

/-!
Attesting a lane transaction: the transaction processor, with the runtime as
its handler, run on the honest host's input. A transaction the guest aborts on
has no journal, and a batch that contains it cannot be proved.
-/
namespace Vprogs.Runtime

open Abi

/-- The handler the guest's `main` passes to the transaction processor. -/
def handler (P : Primitives) : TransactionHandler := fun tx _ _ resources exits deposit => do
  let cx ← run P tx resources exits deposit
  pure ⟨cx.exits, cx.deposit.hash, cx.resources⟩

def processor (P : Primitives) (inputsBuf : Bytes) : Guest (Bytes × Bytes) :=
  processTransaction P.keyedHash P.sha256 (handler P) inputsBuf

/-- The guest returns, and its journal decodes and has the shape the batch
verifier asks for. -/
def Attested (P : Primitives) (ctx : TransactionContext P.keyedHash) : Prop :=
  ∃ journal out entries, processor P (Inputs.encode ctx) = .ok (journal, out) ∧
    JournalEntries.decode journal = .ok entries ∧
    Lane.BatchProcessor.Verifier.checkShape entries = .ok ()

theorem checkShape_executed {entries : JournalEntries} {execCtx : ExecutionContext}
    (h : entries.inputCommitment.executionContext = some execCtx) :
    Lane.BatchProcessor.Verifier.checkShape entries = .ok () := by
  rw [Lane.BatchProcessor.Verifier.checkShape, h]

theorem handler_fits (P : Primitives) (tx : Transaction) (mergeIdx : UInt32) (contextHash : Hash)
    (resources : List Resource) (hix : tx.payload.ixData.length ≤ tx.payload.bytes.length)
    (hlen : tx.payload.bytes.length < 2 ^ 32) :
    ∃ result : Except Error Effects,
      (asResult (handler P tx mergeIdx contextHash resources {} {}) : Guest _) = .ok result ∧
        ResultFits result := by
  have hsafe := run_safe P tx resources {} {} hix
  match hrun : run P tx resources {} {} with
  | .ok cx =>
    refine ⟨.ok ⟨cx.exits, cx.deposit.hash, cx.resources⟩, by rw [handler, hrun]; rfl, ?_⟩
    have hexits := run_exits_length hrun
    simp only [List.length_nil, Nat.zero_add] at hexits
    change cx.exits.buf.length < 2 ^ 32
    omega
  | .error (.err e) =>
    rw [hrun] at hsafe
    exact ⟨.error e, by rw [handler, hrun]; rfl, hsafe⟩
  | .error (.panic msg) =>
    rw [hrun] at hsafe
    exact absurd hsafe id

section

variable {P : Primitives} (ctx : TransactionContext P.keyedHash)

/-- Once the inputs decode to `inputs` and the handler's result is `result`, the
journal is theirs. -/
theorem attested_of {inputs : Inputs} {result : Except Error Effects}
    (hdecode : Inputs.decode.run (Inputs.encode ctx) = .ok (inputs, []))
    (hexec : execute P.keyedHash (handler P) inputs = .ok result) (hshape : inputs.Shaped)
    (hfits : ResultFits result)
    (hcheck : Lane.BatchProcessor.Verifier.checkShape
      ⟨InputCommitment.ofInputs P.sha256 inputs, OutputCommitment.ofResult P.sha256 result⟩ = .ok ()) :
    Attested P ctx := by
  refine ⟨journalBytes P.sha256 inputs result, Outputs.encode result, _, ?_,
    JournalEntries.decode_journalBytes hshape hfits, hcheck⟩
  rw [processor, processTransaction, hdecode]
  change (do
    let result ← execute P.keyedHash (handler P) inputs
    pure (journalBytes P.sha256 inputs result, Outputs.encode result)) = _
  rw [hexec]
  rfl

theorem attested_of_unsupported (hv : ctx.tx.version ≠ Transaction.V1) : Attested P ctx := by
  have hdecode := Inputs.run_decode_encode ctx
  rw [if_neg hv] at hdecode
  refine attested_of ctx hdecode (if_neg hv) ⟨?_, fun _ h => nomatch h⟩ ?_ ?_
  · exact (decide_eq_false hv).symm
  · exact trivial
  · rfl

theorem attested_of_payload (hv : ctx.tx.version = Transaction.V1) {payload : Payload}
    (hp : Payload.decode ctx.tx.payload = .ok payload) : Attested P ctx := by
  have hdecode : Inputs.decode.run (Inputs.encode ctx) =
      .ok (ctx.toInputs (some (ctx.toExecutionInput payload)), []) := by
    rw [Inputs.run_decode_encode ctx, if_pos hv, hp]
    rfl
  have ⟨hbytes, hslice⟩ := Payload.decode_eq_ok.mp hp
  have hlt : payload.bytes.length < 2 ^ 32 := by
    have := ctx.tx.fits
    rw [hbytes]
    omega
  have hid : ctx.tx.id = Transaction.id P.keyedHash ⟨payload, ctx.tx.restPreimage⟩ := by
    rw [ctx.tx.id_v1 hv, Transaction.id, hbytes]
  have hrun : execute P.keyedHash (handler P) (ctx.toInputs (some (ctx.toExecutionInput payload))) =
      asResult (handler P (ctx.toExecutionInput payload).tx ctx.mergeIdx ctx.contextHash
        (ctx.toExecutionInput payload).resources {} {}) := execute_supported hv rfl hid
  have ⟨result, hresult, hfits⟩ := handler_fits P (ctx.toExecutionInput payload).tx ctx.mergeIdx
    ctx.contextHash (ctx.toExecutionInput payload).resources (Payload.length_ixData hp) hlt
  refine attested_of ctx hdecode ?_ ⟨?_, ?_⟩ hfits (checkShape_executed rfl)
  · rw [hrun, hresult]
  · exact (decide_eq_true hv).symm
  · intro exec hexec
    cases hexec
    have hcount := (AccessMetadata.decodeSlice_eq_ok.mp hslice).2.1
    change (List.zipWith _ _ _).length < _
    rw [List.length_zipWith]
    omega

/-- A lane transaction can be attested exactly when its version is not supported
or the access metadata in front of its payload decodes. -/
theorem lane_transaction_attested_iff (P : Primitives) (ctx : TransactionContext P.keyedHash) :
    Attested P ctx ↔ (ctx.tx.version = Transaction.V1 →
      ∃ accesses ixData, (AccessMetadata.decodeSlice : Reader Error _).run ctx.tx.payload =
        .ok (accesses, ixData)) := by
  by_cases hv : ctx.tx.version = Transaction.V1
  · have hdecode := Inputs.run_decode_encode ctx
    rw [if_pos hv] at hdecode
    match hp : Payload.decode ctx.tx.payload with
    | .ok payload =>
      exact ⟨fun _ _ => ⟨_, _, (Payload.decode_eq_ok.mp hp).2⟩,
        fun _ => attested_of_payload ctx hv hp⟩
    | .error e =>
      rw [hp] at hdecode
      constructor
      · intro ⟨_, _, _, hrun, _⟩
        rw [processor, processTransaction, hdecode] at hrun
        cases hrun
      · intro h
        have ⟨accesses, ixData, hslice⟩ := h hv
        have hok : Payload.decode ctx.tx.payload = .ok ⟨ctx.tx.payload, accesses, ixData⟩ :=
          Payload.decode_eq_ok.mpr ⟨rfl, hslice⟩
        rw [hp] at hok
        cases hok
  · exact ⟨fun _ h => absurd h hv, fun _ => attested_of_unsupported ctx hv⟩

end

namespace Sample

def primitives : Primitives :=
  { sha256 := fun _ => zeroHash, keyedHash := fun _ _ => zeroHash, blake2b := fun _ => zeroHash,
    verifySchnorr := fun _ _ _ => false }

/-- A version 1 transaction with one input, one output and no payload at all. -/
def emptyPayloadTx : L1.Tx :=
  { version := 1, inputs := [⟨⟨zeroHash, 0⟩, [], 0⟩],
    outputs := [⟨1000, 0, (StandardSpk.pubKey zeroHash).toScriptBytes, none⟩], lockTime := 0,
    subnetworkId := Arr.fill 0, gas := 0, payload := [] }

def emptyPayload : TransactionContext primitives.keyedHash :=
  { tx :=
      { version := emptyPayloadTx.version, payload := emptyPayloadTx.payload,
        restPreimage := emptyPayloadTx.restPreimage, id := zeroHash, id_v1 := fun _ => rfl,
        fits := by decide +kernel }
    mergeIdx := 0
    contextHash := zeroHash
    resources := []
    declared := by decide }

/-- The bridge schedules this transaction without accesses, and the guest aborts
on the input the host encodes for it. -/
theorem emptyPayload_not_attested :
    processor primitives (Inputs.encode emptyPayload) = .error (.panic "malformed host input") ∧
      ¬ Attested primitives emptyPayload := by
  have hrun : processor primitives (Inputs.encode emptyPayload) =
      .error (.panic "malformed host input") := by
    rw [processor, processTransaction, Inputs.run_decode_encode]
    rfl
  refine ⟨hrun, ?_⟩
  intro ⟨_, _, _, hok, _⟩
  rw [hrun] at hok
  cases hok

end Sample

end Vprogs.Runtime
