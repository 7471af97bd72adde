import Vprogs.Runtime.Signers

/-!
Applying the actions of a transaction to its resources, one after the other.
An error at any point fails the whole transaction, so the context is only ever
read again after a success.
-/
namespace Vprogs.Runtime

open Abi

def DELEGATE_SCRIPT_PREFIX : Bytes := [0xb9, 0x00, 0xa0, 0x69, 0x00, 0xcf, 0x20]

def DELEGATE_SCRIPT_SUFFIX : Bytes :=
  [0x88, 0x00, 0x00, 0xc9, 0x76, 0x52, 0x94, 0x7c, 0xbc, 0x02, 0x51, 0x75, 0x88, 0x51]

def buildDelegateEntryScript (covenantId : Hash) : Bytes :=
  DELEGATE_SCRIPT_PREFIX ++ covenantId.val ++ DELEGATE_SCRIPT_SUFFIX

def delegateEntrySpkHash (P : Primitives) (covenantId : Hash) : Hash :=
  P.blake2b (buildDelegateEntryScript covenantId)

/-- `ExampleDepositPolicy`: deposits pay the covenant's delegate address and
credit the action's own user, creating it if it is new. -/
def depositSpk (P : Primitives) (covenantId : Hash) : Bytes :=
  (StandardSpk.scriptHash (delegateEntrySpkHash P covenantId)).toScriptBytes

def MIN_CREATE_BALANCE : UInt64 := 1000

structure ApplyContext where
  tx : Transaction
  resources : List Resource
  lifecycle : List Lifecycle
  exits : ExitSink
  deposit : DepositSink
  consumedOutputs : List UInt32

namespace ApplyContext

def new (tx : Transaction) (resources : List Resource) (exits : ExitSink) (deposit : DepositSink) :
    ApplyContext :=
  ⟨tx, resources, resources.map Lifecycle.fromResource, exits, deposit, []⟩

def resource (cx : ApplyContext) (idx : Nat) : Run Resource :=
  orPanic cx.resources[idx]? "index out of bounds"

def lifecycleAt (cx : ApplyContext) (idx : Nat) : Run Lifecycle :=
  orPanic cx.lifecycle[idx]? "index out of bounds"

def setResource (cx : ApplyContext) (idx : Nat) (r : Resource) : ApplyContext :=
  { cx with resources := cx.resources.set idx r }

def markCreated (cx : ApplyContext) (idx : Nat) : Run ApplyContext := do
  let state ← cx.lifecycleAt idx
  let state ← orErr state.created
  pure { cx with lifecycle := cx.lifecycle.set idx state }

end ApplyContext

section

variable (P : Primitives) (auth : AuthContext)

/-- The scan for the config resource. -/
def findConfig (resources : List Resource) : Option Raw :=
  match resources.find? (fun r => r.id == configResourceId P) with
  | some r => viewConfig r
  | none => none

def validateUserCreate (slotId : ResourceId) (initialLock : LockEnum) (funding : UInt64) : Run Hash :=
  let ilh := initialLock.idHash P
  if slotId ≠ deriveUserResource P ilh then
    err "create: slot id != derive_user_resource(initial_lock)"
  else if funding < MIN_CREATE_BALANCE then
    err "create: funding below policy minimum to create user"
  else .ok ilh

def writeNewState (target : Resource) (newMinWithdrawalAmount : UInt64) (newCovenantId : Hash)
    (newLock : LockEnum) : Run Resource := do
  let newLen := HEADER_LEN + newLock.wireBodyLen
  let target := if target.data.isEmpty ∨ target.data.length ≠ newLen then target.resize newLen else target
  let data ← writeConfig target.data.length newMinWithdrawalAmount newCovenantId newLock
  pure (target.setData data)

def applyUpdate (updaterIdx : UInt8) (newMinWithdrawalAmount : UInt64) (newCovenantId : Hash)
    (newLock : LockEnum) (cx : ApplyContext) : Run ApplyContext := do
  let idx := updaterIdx.toNat
  let target ← cx.resource idx
  if target.id ≠ configResourceId P then err "update: target is not the config resource"
  else match ← cx.lifecycleAt idx with
    | .new => err "update: config resource must already exist"
    | .deleted => err "update: config resource is deleted"
    | .live => do
        let cur ← orErr (ConfigView.fromBytes target.data)
        if newCovenantId ≠ cur.digest then err "update: covenant_id is immutable after init"
        else do
          let lock ← cur.lock
          let ok ← lock.unlock updaterIdx auth
          if !ok then err "update: lock not satisfied"
          else do
            let target ← writeNewState target newMinWithdrawalAmount newCovenantId newLock
            pure (cx.setResource idx target)

def applyInit (updaterIdx : UInt8) (newMinWithdrawalAmount : UInt64) (newCovenantId : Hash)
    (newLock : LockEnum) (cx : ApplyContext) : Run ApplyContext := do
  let idx := updaterIdx.toNat
  let target ← cx.resource idx
  if target.id ≠ configResourceId P then err "init: target is not the config resource"
  else do
    let state ← cx.lifecycleAt idx
    if state ≠ .new then err "init: config resource already exists"
    else do
      let ok ← (LockEnum.schnorr GENESIS_SCHNORR_BYTES).unlock updaterIdx auth
      if !ok then err "init: not authorized by genesis pubkey"
      else do
        let target ← writeNewState target newMinWithdrawalAmount newCovenantId newLock
        (cx.setResource idx target).markCreated idx

/-- `checked_add` and `checked_sub` on balances. -/
def checkedAdd (a b : UInt64) (msg : String) : Except String UInt64 :=
  if a.toNat + b.toNat < 2 ^ 64 then .ok (a + b) else .error msg

def checkedSub (a b : UInt64) (msg : String) : Except String UInt64 :=
  if b ≤ a then .ok (a - b) else .error msg

/-- A modified user, or the error for a slot that holds none. -/
def modifiedUser (r : Resource) (f : UInt64 → Except String UInt64) (absent : String) :
    Run Resource := do
  let modified ← okOr (modifyUser r f) (.decode absent)
  orErr modified

/-- Whether the user's current lock is satisfied. -/
def userUnlocked (r : Resource) (idx : UInt8) (absent : String) : Run Bool := do
  let view ← okOr (viewUser r) (.decode absent)
  let lock ← view.lock
  lock.unlock idx auth

/-- The lock a new destination is created with, and its hash. -/
def createPlan (create : Bool) (dst : Resource) (amount : UInt64) (destInit : Option LockEnum) :
    Run (Option (Hash × LockEnum)) :=
  if create then do
    let lock ← okOr destInit (.decode "transfer: dest does not exist and no dest lock to create it")
    let ilh ← validateUserCreate P dst.id lock amount
    pure (some (ilh, lock))
  else .ok none

def creditDest (plan : Option (Hash × LockEnum)) (dst : Resource) (amount : UInt64) :
    Run Resource :=
  match plan with
  | some (ilh, lock) => initUser dst amount ilh lock
  | none =>
    modifiedUser dst (checkedAdd · amount "dest: balance overflow")
      "transfer: dest not a live user resource"

/-- Whether the transfer creates its destination. -/
def dstCreate : Lifecycle → Run Bool
  | .new => .ok true
  | .live => .ok false
  | .deleted => err "transfer: dest was deleted in this tx"

def applyTransfer (sourceIdx destIdx : UInt8) (amount : UInt64) (destInit : Option LockEnum)
    (cx : ApplyContext) : Run ApplyContext :=
  if sourceIdx = destIdx then err "transfer: source and dest must differ"
  else do
    let state ← cx.lifecycleAt destIdx.toNat
    let create ← dstCreate state
    let src ← okOr cx.resources[sourceIdx.toNat]? (.decode "transfer: bad indices")
    let dst ← okOr cx.resources[destIdx.toNat]? (.decode "transfer: bad indices")
    let ok ← userUnlocked auth src sourceIdx "transfer: source not a live user resource"
    if !ok then err "source: lock not satisfied"
    else do
      let plan ← createPlan P create dst amount destInit
      let src ← modifiedUser src (checkedSub · amount "source: insufficient balance")
        "transfer: source not a live user resource"
      let dst ← creditDest plan dst amount
      let cx := (cx.setResource sourceIdx.toNat src).setResource destIdx.toNat dst
      if create then cx.markCreated destIdx.toNat else pure cx

def applyUpdateUserLock (userIdx : UInt8) (newLock : LockEnum) (cx : ApplyContext) :
    Run ApplyContext := do
  let target ← cx.resource userIdx.toNat
  let ok ← userUnlocked auth target userIdx "update_user_lock: not a live user resource"
  if !ok then err "update_user_lock: current lock not satisfied"
  else do
    let target ← setUserLock target newLock
    pure (cx.setResource userIdx.toNat target)

/-- What a deposit does to its target once every check has passed. -/
inductive CreditKind where
  | create (initialLockHash : Hash)
  | creditExisting (newBalance : UInt64)

def creditKind (state : Lifecycle) (target : Resource) (initialLock : LockEnum) (value : UInt64) :
    Run CreditKind :=
  match state with
  | .new => do
      let ilh ← validateUserCreate P target.id initialLock value
      pure (.create ilh)
  | .live => do
      let view ← okOr (viewUser target) (.decode "deposit: target not a live user resource")
      if view.digest ≠ initialLock.idHash P then
        err "deposit: initial_lock mismatch for existing user"
      else do
        let new ← orErr (checkedAdd view.amount value "deposit: balance overflow")
        pure (.creditExisting new)
  | .deleted => err "deposit: target slot was deleted in this tx"

def depositOutput (tx : Transaction) (outputIdx : UInt32) : Run OutputData :=
  match parseOutputAtIndexV1 tx.restPreimage outputIdx with
  | .ok out => .ok out
  | .error _ => err "deposit: bad output_idx / rest_preimage"

def applyDeposit (userIdx : UInt8) (outputIdx : UInt32) (initialLock : LockEnum)
    (cx : ApplyContext) : Run ApplyContext :=
  if outputIdx ∈ cx.consumedOutputs then err "deposit: output already consumed in this tx"
  else do
    let config ← okOr (findConfig P cx.resources)
      (.decode "deposit: config resource absent or not live")
    let covenantId := config.digest
    let out ← depositOutput cx.tx outputIdx
    if out.spkVersion ≠ 0 ∨ out.spk ≠ depositSpk P covenantId then
      err "deposit: funding output SPK != policy deposit_spk"
    else do
      let idx := userIdx.toNat
      if cx.resources.length ≤ idx then err "deposit: credit user_idx out of range"
      else do
        let state ← cx.lifecycleAt idx
        let target ← cx.resource idx
        let kind ← creditKind P state target initialLock out.value
        let deposit ← lift (cx.deposit.set (delegateEntrySpkHash P covenantId))
        let cx := { cx with
          deposit := deposit, consumedOutputs := cx.consumedOutputs ++ [outputIdx] }
        match kind with
        | .create ilh => do
            let cx ← cx.markCreated idx
            let target ← cx.resource idx
            let target ← initUser target out.value ilh initialLock
            pure (cx.setResource idx target)
        | .creditExisting newBalance => do
            let target ← modifiedUser target (fun _ => .ok newBalance)
              "deposit: target not a live user resource"
            pure (cx.setResource idx target)

def applyWithdraw (userIdx : UInt8) (amount : UInt64) (dest : StandardSpk) (cx : ApplyContext) :
    Run ApplyContext := do
  let config ← okOr (findConfig P cx.resources)
    (.decode "withdraw: config resource absent or not live")
  let target ← cx.resource userIdx.toNat
  let ok ← userUnlocked auth target userIdx "withdraw: not a live user resource"
  if !ok then err "withdraw: lock not satisfied"
  else if amount < config.amount then err "withdraw: amount below min_withdrawal_amount"
  else do
    let view ← okOr (viewUser target) (.decode "withdraw: not a live user resource")
    let newBalance ← orErr (checkedSub view.amount amount "withdraw: insufficient balance")
    let target ← modifiedUser target (fun _ => .ok newBalance) "withdraw: not a live user resource"
    let exits ← lift (cx.exits.emit dest amount)
    pure { cx.setResource userIdx.toNat target with exits := exits }

def applyAction (action : ActionBody) (cx : ApplyContext) : Run ApplyContext :=
  match action with
  | .update updaterIdx min covenantId lock => applyUpdate P auth updaterIdx min covenantId lock cx
  | .init updaterIdx min covenantId lock => applyInit P auth updaterIdx min covenantId lock cx
  | .transfer sourceIdx destIdx amount destInit =>
    applyTransfer P auth sourceIdx destIdx amount destInit cx
  | .updateUserLock userIdx lock => applyUpdateUserLock auth userIdx lock cx
  | .deposit userIdx outputIdx lock => applyDeposit P userIdx outputIdx lock cx
  | .withdraw userIdx amount dest => applyWithdraw P auth userIdx amount dest cx

def applyActions (cx : ApplyContext) : List ActionBody → Run ApplyContext
  | [] => .ok cx
  | action :: rest => do
      let cx ← applyAction P auth action cx
      applyActions cx rest

end

/-- The transaction handler: decode the instructions, resolve the signers and
apply the actions. -/
def run (P : Primitives) (tx : Transaction) (resources : List Resource) (exits : ExitSink)
    (deposit : DepositSink) : Run ApplyContext := do
  let ix ← lift (decodeIx tx.payload.ixData resources.length)
  check (decide (tx.payload.ixData.length ≤ tx.payload.bytes.length)) "attempt to subtract with overflow"
  let endOfActions := tx.payload.bytes.length - tx.payload.ixData.length + ix.endOfActionsInIx
  check (decide (endOfActions ≤ tx.payload.bytes.length)) "range end index out of range"
  let auth ← resolveSigners P
    ⟨tx.payload.bytes, tx.restPreimage, tx.payload.bytes.take endOfActions, resources⟩ {} ix.signers
  applyActions P auth (ApplyContext.new tx resources exits deposit) ix.actions

end Vprogs.Runtime
