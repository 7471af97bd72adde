import Vprogs.Abi.ProcessTransaction

/-!
A journal decodes to what it was written from: the input commitment and the
output commitment, in that order, with nothing between them. The same holds for
the results streamed to the host.
-/
namespace Vprogs.Abi

namespace InputResourceCommitment

theorem length_toBytes (c : InputResourceCommitment) : c.toBytes.length = SIZE := by
  simp [toBytes, SIZE]

theorem cast_eq_some {bs : Bytes} {c : InputResourceCommitment} : cast bs = some c ↔ bs = c.toBytes := by
  have hread : ∀ d rest, (do
      let resourceIndex ← Reader.leU32 "resource_index"
      let resourceId ← Reader.array 32 "resource_id"
      let hash ← Reader.array 32 "hash"
      pure ⟨resourceIndex, resourceId, hash⟩ : Reader CodecError InputResourceCommitment).run bs =
        .ok (d, rest) ↔ bs = d.toBytes ++ rest := by
    intro d rest
    simp only [Reader.run_bind_eq_ok, Reader.run_leU32, Reader.run_array, toBytes]
    constructor
    · rintro ⟨i, _, hi, id, _, hid, hash, _, hhash, hpure⟩
      cases hpure
      rw [hi, hid, hhash]
      simp
    · intro hbs
      exact ⟨d.resourceIndex, d.resourceId.val ++ (d.hash.val ++ rest), by simpa using hbs,
        d.resourceId, d.hash.val ++ rest, rfl, d.hash, rest, rfl, rfl⟩
  unfold cast
  dsimp only
  constructor
  · intro h
    split at h
    · next d hd =>
      cases h
      simpa using (hread c []).mp hd
    · cases h
  · intro h
    rw [(hread c []).mpr (by simpa using h)]

end InputResourceCommitment

/-- What an input commitment records of an execution input. -/
def ExecutionContext.ofInput (hash : DataHash) (exec : ExecutionInput) : ExecutionContext :=
  ⟨exec.contextHash, exec.resources.map (InputResourceCommitment.ofResource hash)⟩

theorem encodeMany_map {α β : Type} (f : α → β) (enc : β → Bytes) (items : List α) :
    encodeMany items (fun a => enc (f a)) = encodeMany (items.map f) enc := by
  simp [encodeMany, List.flatMap_map]

theorem ExecutionContext.run_decode {hash : DataHash} {exec : ExecutionInput}
    (hcount : exec.resources.length < 2 ^ 32) (rest : Bytes) :
    ExecutionContext.decode.run (ExecutionContext.encode hash exec ++ rest) =
      .ok (ExecutionContext.ofInput hash exec, rest) := by
  rw [ExecutionContext.decode, Reader.run_bind_eq_ok, ExecutionContext.encode, List.append_assoc]
  refine ⟨exec.contextHash, _, Reader.run_array.mpr rfl, ?_⟩
  rw [Reader.run_bind_eq_ok]
  refine ⟨exec.resources.map (InputResourceCommitment.ofResource hash), rest, ?_, rfl⟩
  rw [Reader.run_sliceAs InputResourceCommitment.length_toBytes fun _ _ _ =>
    InputResourceCommitment.cast_eq_some]
  refine ⟨?_, by rw [List.length_map]; exact hcount⟩
  rw [← encodeMany_map]
  rfl

/-- What the journal records of decoded inputs. -/
def InputCommitment.ofInputs (hash : DataHash) (inputs : Inputs) : InputCommitment :=
  ⟨inputs.version, inputs.txId, inputs.mergeIdx,
    inputs.executionInput.map (ExecutionContext.ofInput hash)⟩

/-- Inputs as the guest decodes them: an execution input for the supported
version and only for it. -/
structure Inputs.Shaped (inputs : Inputs) : Prop where
  present : inputs.executionInput.isSome = decide (inputs.version = Transaction.V1)
  count : ∀ exec, inputs.executionInput = some exec → exec.resources.length < 2 ^ 32

theorem InputCommitment.run_decode {hash : DataHash} {inputs : Inputs} (hshape : inputs.Shaped)
    (rest : Bytes) :
    InputCommitment.decode.run (InputCommitment.encode hash inputs ++ rest) =
      .ok (InputCommitment.ofInputs hash inputs, rest) := by
  match inputs, hshape with
  | ⟨version, txId, mergeIdx, execution⟩, ⟨hpresent, hcount⟩ =>
    simp only [InputCommitment.decode, InputCommitment.encode, List.append_assoc,
      Reader.run_bind_eq_ok, Reader.run_leU16, Reader.run_array, Reader.run_leU32]
    refine ⟨version, _, rfl, txId, _, rfl, mergeIdx, _, rfl, ?_⟩
    cases execution with
    | none =>
      have hv : ¬ version = Transaction.V1 := by simpa using hpresent
      rw [if_neg hv]
      rfl
    | some exec =>
      have hv : version = Transaction.V1 := by simpa using hpresent
      rw [if_pos hv, Reader.run_bind_eq_ok]
      exact ⟨_, rest, ExecutionContext.run_decode (hcount exec rfl) rest, rfl⟩

/-- What the journal records of a result. -/
def OutputCommitment.ofResult (hash : DataHash) : Except Error Effects → OutputCommitment
  | .ok effects => .success effects.exits.buf effects.depositSpkHash
      (effects.resources.flatMap (OutputResourceCommitment.encode hash))
  | .error e => .error e

/-- The lengths of the result fit their 32-bit prefixes. -/
def ResultFits : Except Error Effects → Prop
  | .ok effects => effects.exits.buf.length < 2 ^ 32
  | .error e => e.Encodable

theorem OutputCommitment.run_decode {hash : DataHash} {result : Except Error Effects}
    (h : ResultFits result) : ∃ rest,
    OutputCommitment.decode.run (OutputCommitment.encode hash result) =
      .ok (OutputCommitment.ofResult hash result, rest) := by
  cases result with
  | ok effects =>
    refine ⟨effects.resources.flatMap (OutputResourceCommitment.encode hash), ?_⟩
    simp only [OutputCommitment.decode, OutputCommitment.encode, Reader.run_bind_eq_ok,
      Reader.run_byte]
    refine ⟨SUCCESS, _, rfl, ?_⟩
    simp only [if_true, Reader.run_bind_eq_ok, Reader.run_blob, Reader.run_array]
    exact ⟨_, _, ⟨rfl, h⟩, _, _, rfl, _, _, rfl, rfl⟩
  | error e =>
    refine ⟨[], ?_⟩
    simp only [OutputCommitment.decode, OutputCommitment.encode, Reader.run_bind_eq_ok,
      Reader.run_byte]
    refine ⟨ERROR, _, rfl, ?_⟩
    rw [if_neg (by decide), if_pos rfl, Reader.run_bind_eq_ok]
    have hdec := Error.decodeError_encode h []
    rw [List.append_nil] at hdec
    exact ⟨e, [], hdec, rfl⟩

/-- A journal written by the guest decodes to its two commitments. -/
theorem JournalEntries.decode_journalBytes {hash : DataHash} {inputs : Inputs}
    {result : Except Error Effects} (hshape : inputs.Shaped) (hresult : ResultFits result) :
    JournalEntries.decode (journalBytes hash inputs result) =
      .ok ⟨InputCommitment.ofInputs hash inputs, OutputCommitment.ofResult hash result⟩ := by
  obtain ⟨rest, hout⟩ : ∃ rest, OutputCommitment.decode.run (OutputCommitment.encode hash result) =
      .ok (OutputCommitment.ofResult hash result, rest) := OutputCommitment.run_decode hresult
  rw [JournalEntries.decode, journalBytes, InputCommitment.run_decode hshape]
  change (OutputCommitment.decode.run (OutputCommitment.encode hash result) >>= fun r => (pure ⟨_, r.1⟩ : Result JournalEntries)) = _
  rw [hout]
  rfl

/-- Whatever the result, the input commitment is read back as it was written. -/
theorem JournalEntries.inputCommitment_of_decode {hash : DataHash} {inputs : Inputs}
    {result : Except Error Effects} {entries : JournalEntries} (hshape : inputs.Shaped)
    (h : JournalEntries.decode (journalBytes hash inputs result) = .ok entries) :
    entries.inputCommitment = InputCommitment.ofInputs hash inputs := by
  rw [JournalEntries.decode, journalBytes, InputCommitment.run_decode hshape] at h
  change (OutputCommitment.decode.run (OutputCommitment.encode hash result) >>= fun r => (pure ⟨_, r.1⟩ : Result JournalEntries)) = _ at h
  cases hout : OutputCommitment.decode.run (OutputCommitment.encode hash result) with
  | error e =>
    rw [hout] at h
    cases h
  | ok output =>
    rw [hout] at h
    cases h
    rfl

end Vprogs.Abi
