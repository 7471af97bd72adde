import Vprogs.Abi.ProcessTransaction

/-!
What the guest decodes from the honest host's input. For a supported version
everything hinges on one decoder, the access metadata in front of the payload:
the rest of the input is length-prefixed by the host.
-/
namespace Vprogs.Abi

namespace AccessMetadata

theorem length_encode (am : AccessMetadata) : am.encode.length = SIZE := by
  simp [encode, SIZE]

theorem cast_encode (am : AccessMetadata) : cast am.encode = some am := by
  have htake : am.encode.take 32 = am.resourceId.val := by simp [encode]
  have hdrop : am.encode.drop 32 = [am.accessType.toByte] := by simp [encode]
  have hlen : (am.encode.take 32).length = 32 := by rw [htake, am.resourceId.length_val]
  have hid : (⟨am.encode.take 32, hlen⟩ : ResourceId) = am.resourceId := Arr.ext htake
  unfold cast
  rw [dif_pos hlen, hdrop, hid]
  cases am with
  | mk id ty => cases ty <;> rfl

theorem cast_eq_some {bs : Bytes} {am : AccessMetadata} : cast bs = some am ↔ bs = am.encode := by
  constructor
  · intro h
    unfold cast at h
    split at h
    · next h32 =>
      split at h
      · next hdrop =>
        cases h
        exact (List.take_append_drop 32 bs).symm.trans (congrArg (bs.take 32 ++ ·) hdrop)
      · next hdrop =>
        cases h
        exact (List.take_append_drop 32 bs).symm.trans (congrArg (bs.take 32 ++ ·) hdrop)
      · cases h
    · cases h
  · intro h
    rw [h, cast_encode]

/-- The declared accesses are a strictly ascending list in its own encoding. -/
theorem decodeSlice_eq_ok {ε : Type} [FromCodec ε] {buf rest : Bytes} {accesses : List AccessMetadata} :
    (decodeSlice : Reader ε _).run buf = .ok (accesses, rest) ↔
      buf = encodeMany accesses encode ++ rest ∧ accesses.length < 2 ^ 32 ∧
        ascending accesses = true := by
  simp only [decodeSlice, Reader.run_bind_eq_ok,
    Reader.run_sliceAs length_encode fun bs a _ => cast_eq_some]
  constructor
  · intro ⟨found, mid, ⟨hbuf, hlen⟩, h⟩
    split at h
    · next hasc =>
      cases h
      exact ⟨hbuf, hlen, hasc⟩
    · cases h
  · intro ⟨hbuf, hlen, hasc⟩
    exact ⟨accesses, rest, ⟨hbuf, hlen⟩, by rw [if_pos hasc]; rfl⟩

theorem ofPayload_eq {ε : Type} [FromCodec ε] {payload rest : Bytes} {accesses : List AccessMetadata}
    (h : (decodeSlice : Reader ε _).run payload = .ok (accesses, rest)) : ofPayload payload = accesses := by
  have hcodec : (decodeSlice : Reader CodecError _).run payload = .ok (accesses, rest) :=
    decodeSlice_eq_ok.mpr (decodeSlice_eq_ok.mp h)
  rw [ofPayload, hcodec]

end AccessMetadata

theorem Payload.decode_eq_ok {bytes : Bytes} {payload : Payload} :
    Payload.decode bytes = .ok payload ↔ payload.bytes = bytes ∧
      (AccessMetadata.decodeSlice : Reader Error _).run bytes =
        .ok (payload.accessMetadata, payload.ixData) := by
  unfold Payload.decode
  match (AccessMetadata.decodeSlice : Reader Error _).run bytes with
  | .ok (accesses, rest) =>
    constructor
    · intro h
      cases h
      exact ⟨rfl, rfl⟩
    · intro ⟨hb, hrun⟩
      cases payload
      cases hb
      cases hrun
      rfl
  | .error e => exact ⟨fun h => (nomatch h), fun h => (nomatch h.2)⟩

theorem Payload.length_ixData {bytes : Bytes} {payload : Payload}
    (h : Payload.decode bytes = .ok payload) : payload.ixData.length ≤ payload.bytes.length := by
  have ⟨hb, hrun⟩ := Payload.decode_eq_ok.mp h
  have hbuf := (AccessMetadata.decodeSlice_eq_ok.mp hrun).1
  rw [hb, hbuf, List.length_append]
  omega

theorem Transaction.run_readBody {payload restPreimage : Bytes}
    (hpayload : payload.length < 2 ^ 32) (hrest : restPreimage.length < 2 ^ 32) :
    Transaction.readBody.run (writeBlob payload ++ writeBlob restPreimage) =
      (Payload.decode payload).map fun p => (⟨p, restPreimage⟩, []) := by
  have hp : (Reader.blob "payload" : Reader Error Bytes).run
      (writeBlob payload ++ writeBlob restPreimage) = .ok (payload, writeBlob restPreimage) :=
    Reader.run_blob.mpr ⟨rfl, hpayload⟩
  have hr : (Reader.blob "rest_preimage" : Reader Error Bytes).run (writeBlob restPreimage) =
      .ok (restPreimage, []) :=
    Reader.run_blob.mpr ⟨(List.append_nil _).symm, hrest⟩
  rw [Transaction.readBody, Reader.run_bind, hp]
  dsimp only
  rw [Reader.run_bind, Reader.run_lift]
  cases Payload.decode payload with
  | error e => rfl
  | ok p =>
    change (Reader.blob "rest_preimage" >>= fun r => pure (Transaction.mk p r) :
      Reader Error Transaction).run (writeBlob restPreimage) = _
    rw [Reader.run_bind, hr]
    rfl

/-- The transaction's own bytes are read back whole, so only the payload's
decoder can fail. -/
theorem Transaction.run_decode_encode {payload restPreimage : Bytes}
    (hfits : 4 + payload.length + 4 + restPreimage.length < 2 ^ 32) (more : Bytes) :
    Transaction.decode.run (Transaction.encode payload restPreimage ++ more) =
      (Payload.decode payload).map fun p => (⟨p, restPreimage⟩, more) := by
  have hlen : (writeBlob payload ++ writeBlob restPreimage).length =
      4 + payload.length + 4 + restPreimage.length := by
    simp [writeBlob]
    omega
  have hblob : Transaction.encode payload restPreimage =
      writeBlob (writeBlob payload ++ writeBlob restPreimage) := by
    rw [writeBlob, hlen]
    rfl
  have htx : (Reader.blob "tx" : Reader Error Bytes).run
      (Transaction.encode payload restPreimage ++ more) =
        .ok (writeBlob payload ++ writeBlob restPreimage, more) :=
    Reader.run_blob.mpr ⟨by rw [hblob], by omega⟩
  rw [Transaction.decode, Reader.run_bind, htx]
  dsimp only
  rw [Reader.run_bind, Reader.run_lift, Transaction.run_readBody (by omega) (by omega)]
  cases Payload.decode payload <;> rfl

/-! ### Resources -/

/-- The resource the guest sees for a host handle. -/
def HostResource.toResource (r : HostResource) (am : AccessMetadata) : Resource :=
  { accessMetadata := am, data := r.data, index := r.resourceIndex, isNew := r.data.isEmpty,
    dirty := false }

theorem Resource.run_decode (r : HostResource) (am : AccessMetadata) (rest : Bytes) :
    (Resource.decode am).run (r.encode ++ rest) = .ok (r.toResource am, rest) := by
  rw [Resource.decode, Reader.run_bind_eq_ok, HostResource.encode, Resource.encode,
    List.append_assoc]
  refine ⟨r.resourceIndex, _, Reader.run_leU32.mpr rfl, ?_⟩
  rw [Reader.run_bind_eq_ok]
  exact ⟨r.data, rest, Reader.run_blob.mpr ⟨rfl, r.fits⟩, rfl⟩

theorem Resource.run_decodeAll {accesses : List AccessMetadata} {resources : List HostResource}
    (hlen : resources.length = accesses.length) (rest : Bytes) :
    (Resource.decodeAll accesses).run (resources.flatMap HostResource.encode ++ rest) =
      .ok (List.zipWith HostResource.toResource resources accesses, rest) := by
  induction accesses generalizing resources with
  | nil =>
    have hnil : resources = [] := List.length_eq_zero_iff.mp hlen
    subst hnil
    rfl
  | cons am accesses ih =>
    match resources with
    | r :: resources =>
      rw [Resource.decodeAll, Reader.run_bind_eq_ok, List.flatMap_cons, List.append_assoc]
      refine ⟨r.toResource am, _, Resource.run_decode r am _, ?_⟩
      rw [Reader.run_bind_eq_ok]
      exact ⟨_, rest, ih (Nat.succ.inj hlen), rfl⟩

/-! ### The whole input -/

section

variable {keyedHash : KeyedHash} (ctx : TransactionContext keyedHash)

/-- What the guest decodes from a host context whose payload it can decode. -/
def TransactionContext.toInputs (executionInput : Option ExecutionInput) : Inputs :=
  ⟨ctx.tx.version, ctx.tx.id, ctx.mergeIdx, executionInput⟩

def TransactionContext.toExecutionInput (payload : Payload) : ExecutionInput :=
  ⟨ctx.contextHash, ⟨payload, ctx.tx.restPreimage⟩,
    List.zipWith HostResource.toResource ctx.resources payload.accessMetadata⟩

theorem ExecutionInput.run_decode :
    ExecutionInput.decode.run (ExecutionInput.encode ctx) =
      (Payload.decode ctx.tx.payload).map fun p => (ctx.toExecutionInput p, []) := by
  have hctx : (Reader.array 32 "context_hash" : Reader Error Hash).run (ExecutionInput.encode ctx) =
      .ok (ctx.contextHash, _) := Reader.run_array.mpr rfl
  rw [ExecutionInput.decode, Reader.run_bind, hctx]
  dsimp only
  rw [Reader.run_bind, Transaction.run_decode_encode ctx.tx.fits]
  cases hp : Payload.decode ctx.tx.payload with
  | error e => rfl
  | ok p =>
    have hlen : ctx.resources.length = p.accessMetadata.length := by
      rw [ctx.declared, AccessMetadata.ofPayload_eq (Payload.decode_eq_ok.mp hp).2]
    have hall := Resource.run_decodeAll hlen []
    rw [List.append_nil] at hall
    change (Resource.decodeAll p.accessMetadata >>= fun rs =>
      pure (ExecutionInput.mk ctx.contextHash ⟨p, ctx.tx.restPreimage⟩ rs) :
        Reader Error ExecutionInput).run (ctx.resources.flatMap HostResource.encode) = _
    rw [Reader.run_bind, hall]
    rfl

/-- The guest decodes the honest host's input exactly when the version is not
supported or the payload decodes. -/
theorem Inputs.run_decode_encode :
    Inputs.decode.run (Inputs.encode ctx) =
      if ctx.tx.version = Transaction.V1 then
        (Payload.decode ctx.tx.payload).map fun p =>
          (ctx.toInputs (some (ctx.toExecutionInput p)), [])
      else .ok (ctx.toInputs none, []) := by
  have hver : (Reader.leU16 "version" : Reader Error UInt16).run (Inputs.encode ctx) =
      .ok (ctx.tx.version, _) := Reader.run_leU16.mpr rfl
  have hid : ∀ rest, (Reader.array 32 "tx_id" : Reader Error Hash).run (ctx.tx.id.val ++ rest) =
      .ok (ctx.tx.id, rest) := fun rest => Reader.run_array.mpr rfl
  have hidx : ∀ rest, (Reader.leU32 "merge_idx" : Reader Error UInt32).run
      (leBytes 4 ctx.mergeIdx.toNat ++ rest) = .ok (ctx.mergeIdx, rest) :=
    fun rest => Reader.run_leU32.mpr rfl
  rw [Inputs.decode, Reader.run_bind, hver]
  dsimp only
  rw [Reader.run_bind, hid]
  dsimp only
  rw [Reader.run_bind, hidx]
  dsimp only
  split
  · rw [Reader.run_bind, ExecutionInput.run_decode]
    cases Payload.decode ctx.tx.payload <;> rfl
  · rfl

end

/-! ### Any input the guest decodes -/

theorem Resource.decodeAll_spec {accesses : List AccessMetadata} {resources : List Resource}
    {buf rest : Bytes} (h : (Resource.decodeAll accesses).run buf = .ok (resources, rest)) :
    resources.map (·.accessMetadata) = accesses ∧ ∀ r ∈ resources, r.isNew = r.data.isEmpty := by
  induction accesses generalizing buf resources with
  | nil =>
    cases h
    exact ⟨rfl, nofun⟩
  | cons am ams ih =>
    simp only [Resource.decodeAll, Reader.run_bind_eq_ok] at h
    have ⟨r, _, hr, others, _, hothers, hcons⟩ := h
    cases hcons
    simp only [Resource.decode, Reader.run_bind_eq_ok] at hr
    have ⟨_, _, _, _, _, _, hmk⟩ := hr
    cases hmk
    have ⟨hmap, hnew⟩ := ih hothers
    exact ⟨congrArg (am :: ·) hmap, List.forall_mem_cons.mpr ⟨rfl, hnew⟩⟩

theorem Transaction.payload_of_decode {buf rest : Bytes} {tx : Transaction}
    (h : Transaction.decode.run buf = .ok (tx, rest)) :
    ∃ bytes, Payload.decode bytes = .ok tx.payload ∧ bytes.length < 2 ^ 32 ∧
      tx.restPreimage.length < 2 ^ 32 := by
  have ⟨txBuf, _, _, h⟩ := Reader.run_bind_eq_ok.mp h
  have ⟨⟨found, _⟩, _, hlift, hpure⟩ := Reader.run_bind_eq_ok.mp h
  cases hpure
  match hbody : Transaction.readBody.run txBuf with
  | .error e => rw [hbody, Reader.run_lift] at hlift; cases hlift
  | .ok (body, left) =>
    rw [hbody, Reader.run_lift] at hlift
    cases hlift
    have ⟨payloadBytes, _, hbytes, hbody⟩ := Reader.run_bind_eq_ok.mp hbody
    have ⟨payload, _, hpayload, hbody⟩ := Reader.run_bind_eq_ok.mp hbody
    have ⟨_, _, hrest, hmk⟩ := Reader.run_bind_eq_ok.mp hbody
    cases hmk
    refine ⟨payloadBytes, ?_, (Reader.run_blob.mp hbytes).2, (Reader.run_blob.mp hrest).2⟩
    match hp : Payload.decode payloadBytes with
    | .error e => rw [hp, Reader.run_lift] at hpayload; cases hpayload
    | .ok found =>
      rw [hp, Reader.run_lift] at hpayload
      cases hpayload
      rfl

/-- What decoding guarantees about inputs from any host. -/
structure Inputs.Decoded (inputs : Inputs) : Prop where
  present : inputs.executionInput.isSome = decide (inputs.version = Transaction.V1)
  count : ∀ exec, inputs.executionInput = some exec → exec.resources.length < 2 ^ 32
  ixData : ∀ exec, inputs.executionInput = some exec →
    exec.tx.payload.ixData.length ≤ exec.tx.payload.bytes.length
  isNew : ∀ exec, inputs.executionInput = some exec →
    ∀ r ∈ exec.resources, r.isNew = r.data.isEmpty
  ascending : ∀ exec, inputs.executionInput = some exec →
    AccessMetadata.ascending (exec.resources.map (·.accessMetadata)) = true

theorem Inputs.decode_spec {buf rest : Bytes} {inputs : Inputs}
    (h : Inputs.decode.run buf = .ok (inputs, rest)) : inputs.Decoded := by
  simp only [Inputs.decode, Reader.run_bind_eq_ok] at h
  have ⟨version, _, _, txId, _, _, mergeIdx, _, _, h⟩ := h
  split at h
  · next hv =>
    have ⟨exec, _, hexec, hmk⟩ := Reader.run_bind_eq_ok.mp h
    cases hmk
    simp only [ExecutionInput.decode, Reader.run_bind_eq_ok] at hexec
    have ⟨_, _, _, tx, _, htx, resources, _, hres, hmk⟩ := hexec
    cases hmk
    have ⟨bytes, hpayload, _⟩ := Transaction.payload_of_decode htx
    have ⟨hmap, hnew⟩ := Resource.decodeAll_spec hres
    have ⟨_, hcount, hascending⟩ :=
      AccessMetadata.decodeSlice_eq_ok.mp (Payload.decode_eq_ok.mp hpayload).2
    refine ⟨(decide_eq_true hv).symm, ?_, ?_, ?_, ?_⟩
    · intro exec hsome
      cases hsome
      rw [← hmap, List.length_map] at hcount
      exact hcount
    · intro exec hsome
      cases hsome
      exact Payload.length_ixData hpayload
    · intro exec hsome
      cases hsome
      exact hnew
    · intro exec hsome
      cases hsome
      exact hmap ▸ hascending
  · next hv =>
    cases h
    exact ⟨(decide_eq_false hv).symm, nofun, nofun, nofun, nofun⟩

end Vprogs.Abi
