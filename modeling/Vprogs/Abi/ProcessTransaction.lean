import Vprogs.Abi.Journal

/-!
One transaction-processor run: decode the host's input, commit to it, run the
handler if the version is supported, commit to the result and stream it back.
With it, the host's side of both streams.
-/
namespace Vprogs.Abi

/-! ### The output stream -/

/-- Storage mutations in resource order; `none` for an unchanged resource. -/
structure Outputs where
  storageOps : List (Option Bytes)
  deriving DecidableEq

namespace Outputs

def OK : UInt8 := 0x00
def ERR : UInt8 := 0x01

def encodeOp (r : Resource) : Bytes := if r.dirty then 1 :: writeBlob r.data else [0]

def encode : Except Error Effects → Bytes
  | .ok effects => OK :: effects.resources.flatMap encodeOp
  | .error e => ERR :: e.encode

def decodeOp : Reader Error (Option Bytes) := do
  let dirty ← Reader.bool "dirty_flag"
  if dirty then do
    let data ← Reader.blob "data"
    pure (some data)
  else pure none

def decodeOps : Nat → Reader Error (List (Option Bytes))
  | 0 => pure []
  | count + 1 => do
      let op ← decodeOp
      let ops ← decodeOps count
      pure (op :: ops)

/-- A failed execution is decoded into its own error. -/
def read (count : Nat) : Reader Error Outputs := do
  let discriminant ← Reader.byte "discriminant"
  if discriminant = OK then do
    let ops ← decodeOps count
    pure ⟨ops⟩
  else if discriminant = ERR then do
    let e ← Error.decodeError
    Reader.fail e
  else Reader.fail (.decode "invalid output discriminant")

def decode (buf : Bytes) (count : Nat) : Result Outputs := do
  let (outputs, _) ← (read count).run buf
  pure outputs

end Outputs

/-! ### The guest -/

/-- Program logic. What it returns is the resources, exits and deposit after the
run; after an error none of them is read. -/
abbrev TransactionHandler :=
  Transaction → UInt32 → Hash → List Resource → ExitSink → DepositSink → Outcome Error Effects

section

variable (keyedHash : KeyedHash) (hash : DataHash) (f : TransactionHandler)

def execute (inputs : Inputs) : Guest (Except Error Effects) :=
  if inputs.version = Transaction.V1 then do
    let exec ← orPanic inputs.executionInput "host omitted execution_input"
    check (inputs.txId == exec.tx.id keyedHash) "host tx_id does not match derived id"
    asResult (f exec.tx inputs.mergeIdx exec.contextHash exec.resources {} {})
  else .ok (.error ErrorCode.versionIncompatible.toError)

variable {keyedHash f} in
theorem execute_supported {inputs : Inputs} {exec : ExecutionInput} (hv : inputs.version = Transaction.V1)
    (hexec : inputs.executionInput = some exec) (hid : inputs.txId = exec.tx.id keyedHash) :
    execute keyedHash f inputs =
      asResult (f exec.tx inputs.mergeIdx exec.contextHash exec.resources {} {}) := by
  rw [execute, if_pos hv, hexec, hid]
  change (do
    check (exec.tx.id keyedHash == exec.tx.id keyedHash) _
    asResult (f exec.tx inputs.mergeIdx exec.contextHash exec.resources {} {})) = _
  rw [beq_self_eq_true]
  rfl

/-- The journal of one run. -/
def journalBytes (inputs : Inputs) (result : Except Error Effects) : Bytes :=
  InputCommitment.encode hash inputs ++ OutputCommitment.encode hash result

/-- Returns the journal and the bytes streamed to the host. -/
def processTransaction (inputsBuf : Bytes) : Guest (Bytes × Bytes) := do
  let (inputs, _) ← expectOk (Inputs.decode.run inputsBuf) "malformed host input"
  let result ← execute keyedHash f inputs
  pure (journalBytes hash inputs result, Outputs.encode result)

end

/-! ### The host's input -/

/-- A transaction accepted on the base chain. The rest preimage is its consensus
serialization without payload and signature scripts; consensus bounds its size
far below the guest's address space. -/
structure L1Transaction (keyedHash : KeyedHash) where
  version : UInt16
  payload : Bytes
  restPreimage : Bytes
  id : Hash
  id_v1 : version = Transaction.V1 → id = txIdV1 keyedHash payload restPreimage
  fits : 4 + payload.length + 4 + restPreimage.length < 2 ^ 32

/-- The resource handle of one declared access, as far as the encoder reads it. -/
structure HostResource where
  resourceIndex : UInt32
  data : Bytes
  fits : data.length < 2 ^ 32

/-- The scheduled transaction with the block's context hash. There is one handle
for each access the bridge parsed from the payload. -/
structure TransactionContext (keyedHash : KeyedHash) where
  tx : L1Transaction keyedHash
  mergeIdx : UInt32
  contextHash : Hash
  resources : List HostResource
  declared : resources.length = (AccessMetadata.ofPayload tx.payload).length

def HostResource.encode (r : HostResource) : Bytes := Resource.encode r.resourceIndex r.data

section

variable {keyedHash : KeyedHash} (ctx : TransactionContext keyedHash)

def ExecutionInput.encode : Bytes :=
  ctx.contextHash.val ++ (Transaction.encode ctx.tx.payload ctx.tx.restPreimage ++
    ctx.resources.flatMap HostResource.encode)

def Inputs.encode : Bytes :=
  leBytes 2 ctx.tx.version.toNat ++ (ctx.tx.id.val ++ (leBytes 4 ctx.mergeIdx.toNat ++
    if ctx.tx.version = Transaction.V1 then ExecutionInput.encode ctx else []))

end

end Vprogs.Abi
