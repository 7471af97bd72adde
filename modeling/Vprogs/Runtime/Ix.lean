import Vprogs.Runtime.TxInputs

/-!
The instruction stream of a payload: signers, then actions, then a free tail
that signers point into. Resource indices are checked against the number of
resources while decoding.
-/
namespace Vprogs.Runtime

open Abi

inductive SignerEnum where
  | schnorrSigPtr (sigOffset : UInt32)
  | prevTxV1Witness (inputIdx : UInt8) (restPreimageOffset restPreimageLen payloadDigestOffset : UInt32)
  | multisigSchnorrSigPtr (pubkeyIdx : UInt8) (sigOffset : UInt32)
  | multisigPrevTxV1Witness (inputIdx : UInt8)
      (restPreimageOffset restPreimageLen payloadDigestOffset : UInt32)
  | genesisSchnorrSigPtr (sigOffset : UInt32)
  deriving DecidableEq

/-- The body of both witness signers; `what` is the prefix of the field names. -/
def decodeWitness (what : String) (mk : UInt8 → UInt32 → UInt32 → UInt32 → SignerEnum) :
    Reader Error SignerEnum := do
  let inputIdx ← Reader.byte s!"{what}.input_idx"
  let restPreimageOffset ← Reader.leU32 s!"{what}.rest_preimage_offset"
  let restPreimageLen ← Reader.leU32 s!"{what}.rest_preimage_len"
  let payloadDigestOffset ← Reader.leU32 s!"{what}.payload_digest_offset"
  pure (mk inputIdx restPreimageOffset restPreimageLen payloadDigestOffset)

def decodeSignerBody (kind : UInt8) : Reader Error SignerEnum :=
  if kind = 0x01 then do
    let sigOffset ← Reader.leU32 "signer.schnorr.sig_offset"
    pure (.schnorrSigPtr sigOffset)
  else if kind = 0x02 then decodeWitness "signer.witness" .prevTxV1Witness
  else if kind = 0x03 then do
    let pubkeyIdx ← Reader.byte "signer.multisig_schnorr.pubkey_idx"
    let sigOffset ← Reader.leU32 "signer.multisig_schnorr.sig_offset"
    pure (.multisigSchnorrSigPtr pubkeyIdx sigOffset)
  else if kind = 0x04 then decodeWitness "signer.multisig_witness" .multisigPrevTxV1Witness
  else if kind = 0x05 then do
    let sigOffset ← Reader.leU32 "signer.genesis_schnorr.sig_offset"
    pure (.genesisSchnorrSigPtr sigOffset)
  else Reader.failDecode "signer: unknown kind"

def decodeSigner : Reader Error (UInt8 × SignerEnum) := do
  let resourceIdx ← Reader.byte "signer.resource_idx"
  let kind ← Reader.byte "signer.kind"
  let body ← decodeSignerBody kind
  pure (resourceIdx, body)

inductive ActionBody where
  | update (updaterIdx : UInt8) (newMinWithdrawalAmount : UInt64) (newCovenantId : Hash)
      (newLock : LockEnum)
  | init (updaterIdx : UInt8) (newMinWithdrawalAmount : UInt64) (newCovenantId : Hash)
      (newLock : LockEnum)
  | transfer (sourceIdx destIdx : UInt8) (amount : UInt64) (destInit : Option LockEnum)
  | updateUserLock (userIdx : UInt8) (newLock : LockEnum)
  | deposit (userIdx : UInt8) (outputIdx : UInt32) (initialLock : LockEnum)
  | withdraw (userIdx : UInt8) (amount : UInt64) (dest : StandardSpk)
  deriving DecidableEq

def readResourceIdx (field : String) (nResources : Nat) : Reader Error UInt8 := do
  let idx ← Reader.byte field
  if nResources ≤ idx.toNat then Reader.failDecode field else pure idx

/-- `Update` and `Init` have the same fields; `what` names the action. -/
def decodeConfigAction (what : String) (nResources : Nat)
    (mk : UInt8 → UInt64 → Hash → LockEnum → ActionBody) : Reader Error ActionBody := do
  let updaterIdx ← readResourceIdx s!"action.{what}.updater_idx" nResources
  let newMinWithdrawalAmount ← Reader.leU64 s!"action.{what}.new_min_withdrawal_amount"
  let newCovenantId ← Reader.array 32 s!"action.{what}.new_covenant_id"
  let newLock ← LockEnum.decode
  pure (mk updaterIdx newMinWithdrawalAmount newCovenantId newLock)

/-- One presence byte gates the optional destination lock. -/
def decodeDestInit : Reader Error (Option LockEnum) := do
  let flag ← Reader.byte "action.transfer.has_dest_lock"
  if flag = 0 then pure none
  else if flag = 1 then do
    let lock ← LockEnum.decode
    pure (some lock)
  else Reader.failDecode "action.transfer: bad has_dest_lock flag"

/-- A destination that does not decode is reported under the action's name. -/
def decodeDest : Reader Error StandardSpk := fun buf =>
  match StandardSpk.decode.run buf with
  | .ok found => .ok found
  | .error _ => .error (.decode "action.withdraw: bad dest spk")

theorem run_decodeDest (buf : Bytes) : decodeDest.run buf = match StandardSpk.decode.run buf with
    | .ok found => .ok found
    | .error _ => .error (.decode "action.withdraw: bad dest spk") := rfl

def decodeAction (nResources : Nat) : Reader Error ActionBody := do
  let actionTag ← Reader.byte "action.action_tag"
  if actionTag = 0x01 then decodeConfigAction "update" nResources .update
  else if actionTag = 0x02 then decodeConfigAction "init" nResources .init
  else if actionTag = 0x03 then do
    let sourceIdx ← readResourceIdx "action.transfer.source_idx" nResources
    let destIdx ← readResourceIdx "action.transfer.dest_idx" nResources
    let amount ← Reader.leU64 "action.transfer.amount"
    let destInit ← decodeDestInit
    pure (.transfer sourceIdx destIdx amount destInit)
  else if actionTag = 0x04 then do
    let userIdx ← readResourceIdx "action.update_user_lock.user_idx" nResources
    let newLock ← LockEnum.decode
    pure (.updateUserLock userIdx newLock)
  else if actionTag = 0x05 then do
    let userIdx ← readResourceIdx "action.deposit.user_idx" nResources
    let outputIdx ← Reader.leU32 "action.deposit.output_idx"
    let initialLock ← LockEnum.decode
    pure (.deposit userIdx outputIdx initialLock)
  else if actionTag = 0x06 then do
    let userIdx ← readResourceIdx "action.withdraw.user_idx" nResources
    let amount ← Reader.leU64 "action.withdraw.amount"
    let dest ← decodeDest
    pure (.withdraw userIdx amount dest)
  else Reader.failDecode "action: unknown tag"

/-- Signer entries are in range and non-strictly ascending by resource. -/
def decodeSigners (nResources : Nat) (prev : Option UInt8) :
    Nat → Reader Error (List (UInt8 × SignerEnum))
  | 0 => pure []
  | n + 1 => do
      let entry ← decodeSigner
      if nResources ≤ entry.1.toNat then
        Reader.failDecode "ix.signer: resource_idx out of range"
      else if prev.any (fun p => decide (entry.1 < p)) then
        Reader.failDecode "ix.signer: resource_idx not ascending"
      else do
        let rest ← decodeSigners nResources (some entry.1) n
        pure (entry :: rest)

def decodeActions (nResources : Nat) : Nat → Reader Error (List ActionBody)
  | 0 => pure []
  | n + 1 => do
      let action ← decodeAction nResources
      let rest ← decodeActions nResources n
      pure (action :: rest)

structure DecodedIx where
  signers : List (UInt8 × SignerEnum)
  actions : List ActionBody
  endOfActionsInIx : Nat

def readIx (nResources : Nat) : Reader Error (List (UInt8 × SignerEnum) × List ActionBody) := do
  let nSigners ← Reader.leU32 "ix.signers"
  let signers ← decodeSigners nResources none nSigners.toNat
  let nActions ← Reader.leU32 "ix.actions"
  let actions ← decodeActions nResources nActions.toNat
  pure (signers, actions)

def decodeIx (orig : Bytes) (nResources : Nat) : Result DecodedIx := do
  let ((signers, actions), rest) ← (readIx nResources).run orig
  pure ⟨signers, actions, orig.length - rest.length⟩

end Vprogs.Runtime
