import Vprogs.Runtime.Authorization

/-!
What a signature commits to. The signed message covers the transaction without
its payload and the payload up to the end of the actions. Decoding looks at
nothing behind the bytes it takes, so the signed bytes determine the declared
accesses, the signers and the actions; what follows them is only read while the
signers are resolved.
-/
namespace Vprogs.Runtime

open Abi

/-! ### Decoding is confined to the signed bytes -/

theorem confined_standardSpk : Reader.Confined StandardSpk.decode := by
  refine .bind .byte fun tag => ?_
  split
  · exact .bind (.array 32) fun _ => .pure _
  · split
    · exact .bind (.array 33) fun _ => .pure _
    · split
      · exact .bind (.array 32) fun _ => .pure _
      · exact .fail _

theorem decodeDest_run_eq_ok {buf : Bytes} {found : StandardSpk × Bytes} :
    decodeDest.run buf = .ok found ↔ StandardSpk.decode.run buf = .ok found := by
  rw [run_decodeDest]
  cases StandardSpk.decode.run buf with
  | ok _ => rfl
  | error _ => simp

theorem confined_decodeDest : Reader.Confined decodeDest := by
  intro buf dest rest h
  have ⟨used, hbuf, hused⟩ := confined_standardSpk buf dest rest (decodeDest_run_eq_ok.mp h)
  exact ⟨used, hbuf, fun tail => decodeDest_run_eq_ok.mpr (hused tail)⟩

theorem confined_decodeAction (n : Nat) : Reader.Confined (decodeAction n) := by
  refine .bind .byte fun tag => ?_
  split
  · exact confined_decodeConfigAction _ _ _
  split
  · exact confined_decodeConfigAction _ _ _
  split
  · exact .bind (confined_readResourceIdx _ _) fun _ => .bind (confined_readResourceIdx _ _) fun _ =>
      .bind .leU64 fun _ => .bind confined_decodeDestInit fun _ => .pure _
  split
  · exact .bind (confined_readResourceIdx _ _) fun _ => .bind confined_lock fun _ => .pure _
  split
  · exact .bind (confined_readResourceIdx _ _) fun _ => .bind .leU32 fun _ =>
      .bind confined_lock fun _ => .pure _
  split
  · exact .bind (confined_readResourceIdx _ _) fun _ => .bind .leU64 fun _ =>
      .bind confined_decodeDest fun _ => .pure _
  · exact .fail _

theorem confined_decodeActions (n count : Nat) : Reader.Confined (decodeActions n count) := by
  induction count with
  | zero => exact .pure _
  | succ count ih => exact .bind (confined_decodeAction n) fun _ => .bind ih fun _ => .pure _

theorem confined_readIx (n : Nat) : Reader.Confined (readIx n) :=
  .bind .leU32 fun _ => .bind (confined_decodeSigners n none _) fun _ =>
    .bind .leU32 fun _ => .bind (confined_decodeActions n _) fun _ => .pure _

theorem confined_decodeSlice :
    Reader.Confined (AccessMetadata.decodeSlice : Reader Error (List AccessMetadata)) := by
  refine .bind (.sliceAs _ _) fun view => ?_
  split
  · exact .pure _
  · exact .fail _

/-! ### More resources refuse less -/

section

variable {n m : Nat}

theorem readResourceIdx_mono (h : n ≤ m) (field : String) :
    Reader.Refines (readResourceIdx field n) (readResourceIdx field m) := by
  refine .bind (.refl _) fun idx => ?_
  split
  · exact .fail _ _
  · rw [if_neg (by omega)]
    exact .refl _

theorem decodeConfigAction_mono (h : n ≤ m) (what : String)
    (mk : UInt8 → UInt64 → Hash → LockEnum → ActionBody) :
    Reader.Refines (decodeConfigAction what n mk) (decodeConfigAction what m mk) :=
  .bind (readResourceIdx_mono h _) fun _ => .refl _

theorem decodeAction_mono (h : n ≤ m) : Reader.Refines (decodeAction n) (decodeAction m) := by
  refine .bind (.refl _) fun tag => ?_
  split
  · exact decodeConfigAction_mono h _ _
  split
  · exact decodeConfigAction_mono h _ _
  split
  · exact .bind (readResourceIdx_mono h _) fun _ => .bind (readResourceIdx_mono h _) fun _ => .refl _
  split
  · exact .bind (readResourceIdx_mono h _) fun _ => .refl _
  split
  · exact .bind (readResourceIdx_mono h _) fun _ => .refl _
  split
  · exact .bind (readResourceIdx_mono h _) fun _ => .refl _
  · exact .refl _

theorem decodeSigners_mono (h : n ≤ m) (prev : Option UInt8) (count : Nat) :
    Reader.Refines (decodeSigners n prev count) (decodeSigners m prev count) := by
  induction count generalizing prev with
  | zero => exact .refl _
  | succ count ih =>
    refine .bind (.refl _) fun entry => ?_
    split
    · exact .fail _ _
    · next hin =>
      rw [if_neg (show ¬ m ≤ entry.1.toNat by omega)]
      split
      · exact .fail _ _
      · exact .bind (ih _) fun _ => .refl _

theorem decodeActions_mono (h : n ≤ m) (count : Nat) :
    Reader.Refines (decodeActions n count) (decodeActions m count) := by
  induction count with
  | zero => exact .refl _
  | succ count ih => exact .bind (decodeAction_mono h) fun _ => .bind ih fun _ => .refl _

theorem readIx_mono (h : n ≤ m) : Reader.Refines (readIx n) (readIx m) :=
  .bind (.refl _) fun _ => .bind (decodeSigners_mono h none _) fun _ =>
    .bind (.refl _) fun _ => .bind (decodeActions_mono h _) fun _ => .refl _

end

/-! ### The signed part of a payload -/

/-- A transaction as the guest receives it. -/
structure Received (tx : Transaction) : Prop where
  payload : Payload.decode tx.payload.bytes = .ok tx.payload
  payloadFits : tx.payload.bytes.length < 2 ^ 32
  restFits : tx.restPreimage.length < 2 ^ 32

/-- The declared accesses, the signers and the actions, read in one go. -/
def readSigned (n : Nat) :
    Reader Error (List AccessMetadata × List (UInt8 × SignerEnum) × List ActionBody) := do
  let accessMetadata ← AccessMetadata.decodeSlice
  let ix ← readIx n
  pure (accessMetadata, ix)

theorem confined_readSigned (n : Nat) : Reader.Confined (readSigned n) :=
  .bind confined_decodeSlice fun _ => .bind (confined_readIx n) fun _ => .pure _

theorem readSigned_mono {n m : Nat} (h : n ≤ m) : Reader.Refines (readSigned n) (readSigned m) :=
  .bind (.refl _) fun _ => .bind (readIx_mono h) fun _ => .refl _

section

variable {tx : Transaction} {resources : List Resource} {ix : DecodedIx}

/-- The signed part is what reading the accesses and the instructions takes. -/
theorem Received.read (htx : Received tx) (hix : decodeIx tx.payload.ixData resources.length = .ok ix) :
    ∃ rest, tx.payload.bytes = (resolveContext tx resources ix).payloadPresig ++ rest ∧
      (readSigned resources.length).run tx.payload.bytes =
        .ok ((tx.payload.accessMetadata, ix.signers, ix.actions), rest) ∧
      ix.endOfActionsInIx = tx.payload.ixData.length - rest.length := by
  have hslice := (Payload.decode_eq_ok.mp htx.payload).2
  have ⟨rest, hread, hend⟩ := decodeIx_eq_ok.mp hix
  have ⟨header, hbytes, _⟩ := confined_decodeSlice _ _ _ hslice
  have ⟨used, hdata, _⟩ := confined_readIx _ _ _ _ hread
  refine ⟨rest, ?_, Reader.run_bind_eq_ok.mpr
    ⟨_, _, hslice, Reader.run_bind_eq_ok.mpr ⟨_, _, hread, rfl⟩⟩, hend⟩
  have hcut : tx.payload.bytes.length - tx.payload.ixData.length + ix.endOfActionsInIx =
      (header ++ used).length := by
    rw [hend, hbytes, hdata]
    simp only [List.length_append]
    omega
  have hwhole : tx.payload.bytes = (header ++ used) ++ rest := by
    rw [hbytes, hdata, List.append_assoc]
  rw [resolveContext, hcut, hwhole, List.take_left]

/-- Everything behind the signed part can be exchanged. -/
theorem Received.read_append (htx : Received tx)
    (hix : decodeIx tx.payload.ixData resources.length = .ok ix) (tail : Bytes) :
    (readSigned resources.length).run ((resolveContext tx resources ix).payloadPresig ++ tail) =
      .ok ((tx.payload.accessMetadata, ix.signers, ix.actions), tail) := by
  have ⟨rest, hbytes, hread, _⟩ := htx.read hix
  have ⟨used, hused, hconf⟩ := confined_readSigned _ _ _ _ hread
  have hpre : used = (resolveContext tx resources ix).payloadPresig :=
    List.append_cancel_right (hused.symm.trans hbytes)
  exact hpre ▸ hconf tail

end

/-! ### The signed message -/

theorem writeBlob_append_injective {a b c d : Bytes} (ha : a.length < 2 ^ 32) (hb : b.length < 2 ^ 32)
    (h : writeBlob a ++ c = writeBlob b ++ d) : a = b ∧ c = d := by
  have hread {xs : Bytes} (hxs : xs.length < 2 ^ 32) (tail : Bytes) :
      (Reader.blob "" : Reader Error Bytes).run (writeBlob xs ++ tail) = .ok (xs, tail) :=
    Reader.run_blob.mpr ⟨rfl, hxs⟩
  have hsame := (hread ha c).symm.trans ((congrArg _ h).trans (hread hb d))
  cases hsame
  exact ⟨rfl, rfl⟩

/-! ### The transaction a context carries -/

namespace ApplyContext

/-- The context of another transaction. -/
def withTx (tx : Transaction) (cx : ApplyContext) : ApplyContext := { cx with tx := tx }

variable (tx : Transaction) (cx : ApplyContext)

theorem resource_withTx (idx : Nat) : (cx.withTx tx).resource idx = cx.resource idx := rfl

theorem lifecycleAt_withTx (idx : Nat) : (cx.withTx tx).lifecycleAt idx = cx.lifecycleAt idx := rfl

theorem setResource_withTx (idx : Nat) (r : Resource) :
    (cx.withTx tx).setResource idx r = (cx.setResource idx r).withTx tx := rfl

theorem markCreated_withTx (idx : Nat) :
    (cx.withTx tx).markCreated idx = withTx tx <$> cx.markCreated idx := by
  simp only [markCreated, lifecycleAt_withTx, map_bind]
  rfl

end ApplyContext

section

open ApplyContext

variable (P : Primitives) (auth : AuthContext) (tx : Transaction) (cx : ApplyContext)

theorem applyUpdate_withTx (updaterIdx : UInt8) (min : UInt64) (covenantId : Hash) (lock : LockEnum) :
    applyUpdate P auth updaterIdx min covenantId lock (cx.withTx tx) =
      withTx tx <$> applyUpdate P auth updaterIdx min covenantId lock cx := by
  simp only [applyUpdate, resource_withTx, lifecycleAt_withTx, setResource_withTx, map_bind]
  refine bind_congr fun target => ?_
  split
  · rfl
  · rw [map_bind]
    refine bind_congr fun state => ?_
    split
    · rfl
    · rfl
    · rw [map_bind]
      refine bind_congr fun cur => ?_
      split
      · rfl
      · simp only [map_bind]
        refine bind_congr fun lock => bind_congr fun ok => ?_
        split
        · rfl
        · rw [map_bind]
          rfl

theorem applyInit_withTx (updaterIdx : UInt8) (min : UInt64) (covenantId : Hash) (lock : LockEnum) :
    applyInit P auth updaterIdx min covenantId lock (cx.withTx tx) =
      withTx tx <$> applyInit P auth updaterIdx min covenantId lock cx := by
  simp only [applyInit, resource_withTx, lifecycleAt_withTx, setResource_withTx, map_bind]
  refine bind_congr fun target => ?_
  split
  · rfl
  · rw [map_bind]
    refine bind_congr fun state => ?_
    split
    · rfl
    · rw [map_bind]
      refine bind_congr fun ok => ?_
      split
      · rfl
      · rw [map_bind]
        exact bind_congr fun target => markCreated_withTx _ _ _

theorem applyTransfer_withTx (sourceIdx destIdx : UInt8) (amount : UInt64) (destInit : Option LockEnum) :
    applyTransfer P auth sourceIdx destIdx amount destInit (cx.withTx tx) =
      withTx tx <$> applyTransfer P auth sourceIdx destIdx amount destInit cx := by
  simp only [applyTransfer, lifecycleAt_withTx, setResource_withTx]
  split
  · rfl
  · simp only [map_bind]
    refine bind_congr fun state => bind_congr fun create => bind_congr fun src =>
      bind_congr fun dst => bind_congr fun ok => ?_
    split
    · rfl
    · simp only [map_bind]
      refine bind_congr fun plan => bind_congr fun src => bind_congr fun dst => ?_
      split
      · exact markCreated_withTx _ _ _
      · rfl

theorem applyUpdateUserLock_withTx (userIdx : UInt8) (lock : LockEnum) :
    applyUpdateUserLock auth userIdx lock (cx.withTx tx) =
      withTx tx <$> applyUpdateUserLock auth userIdx lock cx := by
  simp only [applyUpdateUserLock, resource_withTx, setResource_withTx, map_bind]
  refine bind_congr fun target => bind_congr fun ok => ?_
  split
  · rfl
  · rw [map_bind]
    rfl

theorem applyWithdraw_withTx (userIdx : UInt8) (amount : UInt64) (dest : StandardSpk) :
    applyWithdraw P auth userIdx amount dest (cx.withTx tx) =
      withTx tx <$> applyWithdraw P auth userIdx amount dest cx := by
  simp only [applyWithdraw, resource_withTx, setResource_withTx, map_bind]
  refine bind_congr fun config => bind_congr fun target => bind_congr fun ok => ?_
  split
  · rfl
  split
  · rfl
  · simp only [map_bind]
    rfl

/-- Of the transaction, a deposit reads the outputs only. -/
theorem applyDeposit_withTx (userIdx : UInt8) (outputIdx : UInt32) (lock : LockEnum)
    (hrest : tx.restPreimage = cx.tx.restPreimage) :
    applyDeposit P userIdx outputIdx lock (cx.withTx tx) =
      withTx tx <$> applyDeposit P userIdx outputIdx lock cx := by
  have hout : depositOutput (cx.withTx tx).tx outputIdx = depositOutput cx.tx outputIdx := by
    simp only [depositOutput, withTx, hrest]
  simp only [applyDeposit, hout]
  change (if outputIdx ∈ cx.consumedOutputs then _ else _) = _
  split
  · rfl
  · simp only [map_bind]
    refine bind_congr fun config => bind_congr fun out => ?_
    split
    · rfl
    change (if cx.resources.length ≤ userIdx.toNat then _ else _) = _
    split
    · rfl
    · simp only [map_bind, resource_withTx, lifecycleAt_withTx]
      refine bind_congr fun state => bind_congr fun target => bind_congr fun kind =>
        bind_congr fun deposit => ?_
      cases kind with
      | create ilh =>
        have hmark := markCreated_withTx tx { cx with
          deposit := deposit, consumedOutputs := cx.consumedOutputs ++ [outputIdx] } userIdx.toNat
        simp only [withTx] at hmark ⊢
        rw [hmark, map_bind, bind_map_left]
        refine bind_congr fun cx => ?_
        simp only [map_bind]
        rfl
      | creditExisting newBalance =>
        simp only [map_bind]
        rfl

theorem applyAction_withTx (action : ActionBody) (hrest : tx.restPreimage = cx.tx.restPreimage) :
    applyAction P auth action (cx.withTx tx) = withTx tx <$> applyAction P auth action cx := by
  cases action with
  | update => exact applyUpdate_withTx ..
  | init => exact applyInit_withTx ..
  | transfer => exact applyTransfer_withTx ..
  | updateUserLock => exact applyUpdateUserLock_withTx ..
  | deposit => exact applyDeposit_withTx _ _ _ _ _ _ hrest
  | withdraw => exact applyWithdraw_withTx ..

theorem tx_of_applyAction {action : ActionBody} {cx' : ApplyContext}
    (h : applyAction P auth action cx = .ok cx') : cx'.tx = cx.tx := by
  have hframe := applyAction_withTx P auth cx.tx cx action rfl
  rw [show cx.withTx cx.tx = cx from rfl, h] at hframe
  have hsame : cx' = cx'.withTx cx.tx := Except.ok.inj hframe
  rw [hsame]
  rfl

theorem applyActions_withTx (actions : List ActionBody) (hrest : tx.restPreimage = cx.tx.restPreimage) :
    applyActions P auth (cx.withTx tx) actions = withTx tx <$> applyActions P auth cx actions := by
  induction actions generalizing cx with
  | nil => rfl
  | cons action actions ih =>
    simp only [applyActions, applyAction_withTx P auth tx cx action hrest]
    cases haction : applyAction P auth action cx with
    | error e => rfl
    | ok cx' => exact ih cx' (hrest.trans (by rw [tx_of_applyAction P auth cx haction]))

end

/-- With its instructions decoded, a run resolves the signers and applies the
actions. -/
theorem run_eq {P : Primitives} {tx : Transaction} {resources : List Resource} {ix : DecodedIx}
    (htx : Received tx) (hix : decodeIx tx.payload.ixData resources.length = .ok ix)
    (exits : ExitSink) (deposit : DepositSink) :
    run P tx resources exits deposit =
      resolveSigners P (resolveContext tx resources ix) {} ix.signers >>= fun auth =>
        applyActions P auth (ApplyContext.new tx resources exits deposit) ix.actions := by
  have hdata := (confined_decodeSlice.suffix (Payload.decode_eq_ok.mp htx.payload).2).length_le
  have ⟨rest, hend, _⟩ := htx.read hix
  have hlen := (decodeIx_spec hix).2.1
  simp only [run, hix]
  change (check _ _ >>= fun _ => _) = _
  rw [decide_eq_true hdata, decide_eq_true (by omega)]
  rfl

/-! ### What the signature binds -/

/-- The bytes a signer signs, up to the hash. -/
def sigPreimage (ctx : SignerResolveContext) : Bytes :=
  Domain.sigMessage.tag :: (writeBlob ctx.currentRestPreimage ++ writeBlob ctx.payloadPresig)

section

variable {tx tx' : Transaction} {resources resources' : List Resource} {ix ix' : DecodedIx}

theorem sigPreimage_injective (htx : Received tx) (htx' : Received tx')
    (h : sigPreimage (resolveContext tx resources ix) = sigPreimage (resolveContext tx' resources' ix')) :
    tx.restPreimage = tx'.restPreimage ∧
      (resolveContext tx resources ix).payloadPresig =
        (resolveContext tx' resources' ix').payloadPresig := by
  have hfits {tx : Transaction} {resources : List Resource} {ix : DecodedIx} (htx : Received tx) :
      (resolveContext tx resources ix).payloadPresig.length < 2 ^ 32 :=
    Nat.lt_of_le_of_lt (List.length_take_le' _ _) htx.payloadFits
  have ⟨hrest, hpresig⟩ :=
    writeBlob_append_injective htx.restFits htx'.restFits (List.cons.inj h).2
  have hnil : writeBlob (resolveContext tx resources ix).payloadPresig ++ [] =
      writeBlob (resolveContext tx' resources' ix').payloadPresig ++ [] := by
    rw [List.append_nil, List.append_nil, hpresig]
  exact ⟨hrest, (writeBlob_append_injective (hfits htx) (hfits htx') hnil).1⟩

/-- One signed part holds one list of accesses, signers and actions, whatever the
number of resources each side checks the indices against. -/
theorem signed_determines (htx : Received tx) (htx' : Received tx')
    (hix : decodeIx tx.payload.ixData resources.length = .ok ix)
    (hix' : decodeIx tx'.payload.ixData resources'.length = .ok ix')
    (hpresig : (resolveContext tx resources ix).payloadPresig =
      (resolveContext tx' resources' ix').payloadPresig) :
    (tx.payload.accessMetadata, ix.signers, ix.actions) =
      (tx'.payload.accessMetadata, ix'.signers, ix'.actions) := by
  have hread := readSigned_mono (Nat.le_max_left _ resources'.length) _ _ (htx.read_append hix [])
  have hread' := readSigned_mono (Nat.le_max_right resources.length _) _ _ (htx'.read_append hix' [])
  rw [hpresig, hread'] at hread
  exact (Prod.mk.inj (Except.ok.inj hread)).1.symm

/-- The second transaction decodes against the first one's resources as well. -/
theorem decodeIx_of_signed (htx : Received tx) (htx' : Received tx')
    (hix : decodeIx tx.payload.ixData resources.length = .ok ix)
    (hix' : decodeIx tx'.payload.ixData resources'.length = .ok ix')
    (hpresig : (resolveContext tx resources ix).payloadPresig =
      (resolveContext tx' resources' ix').payloadPresig) :
    decodeIx tx'.payload.ixData resources.length = .ok ix' := by
  have ⟨rest, hbytes, _, hend⟩ := htx'.read hix'
  have hread := htx.read_append hix rest
  rw [hpresig, ← hbytes, signed_determines htx htx' hix hix' hpresig] at hread
  have ⟨accesses, mid, hslice, hrest⟩ := Reader.run_bind_eq_ok.mp hread
  rw [(Payload.decode_eq_ok.mp htx'.payload).2] at hslice
  cases hslice
  have ⟨found, _, hfound, hpair⟩ := Reader.run_bind_eq_ok.mp hrest
  cases hpair
  exact decodeIx_eq_ok.mpr ⟨rest, hfound, hend⟩

end

/-- Two transactions with one signed message agree on everything but their
payloads' tails: the same outputs and inputs, declared accesses, signers and
actions. Run on one state, they do the same to it as a function of the keys
their signers resolve to. -/
theorem sigMsg_binds (P : Primitives) {tx tx' : Transaction} {resources resources' : List Resource}
    {ix ix' : DecodedIx} (htx : Received tx) (htx' : Received tx')
    (hix : decodeIx tx.payload.ixData resources.length = .ok ix)
    (hix' : decodeIx tx'.payload.ixData resources'.length = .ok ix')
    (hcollision : P.sha256 (sigPreimage (resolveContext tx resources ix)) =
        P.sha256 (sigPreimage (resolveContext tx' resources' ix')) →
      sigPreimage (resolveContext tx resources ix) = sigPreimage (resolveContext tx' resources' ix'))
    (hmsg : computeSigMessage P tx.restPreimage (resolveContext tx resources ix).payloadPresig =
      computeSigMessage P tx'.restPreimage (resolveContext tx' resources' ix').payloadPresig) :
    tx.restPreimage = tx'.restPreimage ∧
      tx.payload.accessMetadata = tx'.payload.accessMetadata ∧
      ix.signers = ix'.signers ∧ ix.actions = ix'.actions ∧
      ∀ exits deposit, ∃ effect : AuthContext → Run ApplyContext,
        run P tx resources exits deposit =
            resolveSigners P (resolveContext tx resources ix) {} ix.signers >>= effect ∧
          ApplyContext.withTx tx <$> run P tx' resources exits deposit =
            resolveSigners P (resolveContext tx' resources ix') {} ix.signers >>= effect := by
  have ⟨hrest, hpresig⟩ := sigPreimage_injective htx htx' (hcollision hmsg)
  have hsame := signed_determines htx htx' hix hix' hpresig
  have haccess : tx.payload.accessMetadata = tx'.payload.accessMetadata := congrArg (·.1) hsame
  have hsigners : ix.signers = ix'.signers := congrArg (·.2.1) hsame
  have hactions : ix.actions = ix'.actions := congrArg (·.2.2) hsame
  refine ⟨hrest, haccess, hsigners, hactions, fun exits deposit => ⟨fun auth =>
    applyActions P auth (ApplyContext.new tx resources exits deposit) ix.actions,
    run_eq htx hix exits deposit, ?_⟩⟩
  rw [run_eq htx' (decodeIx_of_signed htx htx' hix hix' hpresig), map_bind, hsigners, hactions]
  refine bind_congr fun auth => ?_
  exact (applyActions_withTx P auth tx (ApplyContext.new tx' resources exits deposit) _ hrest).symm

namespace Sample

/-- The two payloads differ in the witness behind the actions only; with one the
signer resolves and the transfer goes through, with the other it does not. -/
theorem witnessExec_sameMessage :
    (witnessIx 0).signers = (witnessIx 1).signers ∧ (witnessIx 0).actions = (witnessIx 1).actions ∧
      (run (fundingPrimitives 0) (witnessExec 0).tx (witnessExec 0).resources {} {}).toBool = true ∧
      (run (fundingPrimitives 0) (witnessExec 1).tx (witnessExec 0).resources {} {}).toBool = false := by
  have hreceived (spkVersion : UInt16)
      (h : decide (Payload.decode (witnessExec spkVersion).tx.payload.bytes =
          .ok (witnessExec spkVersion).tx.payload ∧
        (witnessExec spkVersion).tx.payload.bytes.length < 2 ^ 32 ∧
          (witnessExec spkVersion).tx.restPreimage.length < 2 ^ 32) = true) :
      Received (witnessExec spkVersion).tx :=
    have h := of_decide_eq_true h
    ⟨h.1, h.2.1, h.2.2⟩
  have hlen : (witnessExec 0).resources.length = 2 := by decide +kernel
  have hix (spkVersion : UInt16)
      (h : (decodeIx (witnessExec spkVersion).tx.payload.ixData 2).toBool = true) :
      decodeIx (witnessExec spkVersion).tx.payload.ixData (witnessExec 0).resources.length =
        .ok (witnessIx spkVersion) := by
    rw [hlen]
    exact decodeIx_witnessExec spkVersion h
  have hpre : sigPreimage (resolveContext (witnessExec 0).tx (witnessExec 0).resources (witnessIx 0)) =
      sigPreimage (resolveContext (witnessExec 1).tx (witnessExec 0).resources (witnessIx 1)) := by
    decide +kernel
  have hmsg := congrArg (fundingPrimitives 0).sha256 hpre
  have ⟨_, _, hsigners, hactions, _⟩ := sigMsg_binds (fundingPrimitives 0)
    (hreceived 0 (by decide +kernel)) (hreceived 1 (by decide +kernel)) (hix 0 (by decide +kernel))
    (hix 1 (by decide +kernel)) (fun _ => hpre) hmsg
  exact ⟨hsigners, hactions, by decide +kernel, by decide +kernel⟩

end Sample

end Vprogs.Runtime
