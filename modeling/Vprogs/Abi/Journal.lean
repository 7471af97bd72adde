import Vprogs.Abi.Input

/-!
The transaction journal: what one transaction-processor run commits to. It has
an input part (transaction identity, context and the hash of every declared
resource before the run) and an output part (exits, deposit address and the
hash of every resource the run wrote, or the error it ended with).
-/
namespace Vprogs.Abi

/-- The data hasher of the guest; an empty resource is committed as the
all-zero `EMPTY_HASH`. -/
abbrev DataHash := Bytes → Hash

def dataHash (hash : DataHash) : Bytes → Hash
  | [] => zeroHash
  | data => hash data

structure InputResourceCommitment where
  resourceIndex : UInt32
  resourceId : ResourceId
  hash : Hash
  deriving DecidableEq

namespace InputResourceCommitment

def SIZE : Nat := 68

def toBytes (c : InputResourceCommitment) : Bytes :=
  leBytes 4 c.resourceIndex.toNat ++ (c.resourceId.val ++ c.hash.val)

/-- The cast accepts every 68 bytes. -/
def cast (bs : Bytes) : Option InputResourceCommitment :=
  let read : Reader CodecError InputResourceCommitment := do
    let resourceIndex ← Reader.leU32 "resource_index"
    let resourceId ← Reader.array 32 "resource_id"
    let hash ← Reader.array 32 "hash"
    pure ⟨resourceIndex, resourceId, hash⟩
  match read.run bs with
  | .ok (c, []) => some c
  | _ => none

def ofResource (hash : DataHash) (r : Resource) : InputResourceCommitment :=
  ⟨r.index, r.id, dataHash hash r.data⟩

def encode (hash : DataHash) (r : Resource) : Bytes := (ofResource hash r).toBytes

end InputResourceCommitment

structure ExecutionContext where
  contextHash : Hash
  resources : List InputResourceCommitment
  deriving DecidableEq

namespace ExecutionContext

def decode : Reader Error ExecutionContext := do
  let contextHash ← Reader.array 32 "context_hash"
  let resources ← Reader.sliceAs InputResourceCommitment.SIZE InputResourceCommitment.cast "resources"
  pure ⟨contextHash, resources⟩

def encode (hash : DataHash) (exec : ExecutionInput) : Bytes :=
  exec.contextHash.val ++ encodeMany exec.resources (InputResourceCommitment.encode hash)

end ExecutionContext

structure InputCommitment where
  version : UInt16
  txId : Hash
  mergeIdx : UInt32
  executionContext : Option ExecutionContext
  deriving DecidableEq

namespace InputCommitment

def decode : Reader Error InputCommitment := do
  let version ← Reader.leU16 "version"
  let txId ← Reader.array 32 "tx_id"
  let mergeIdx ← Reader.leU32 "merge_idx"
  if version = Transaction.V1 then do
    let executionContext ← ExecutionContext.decode
    pure ⟨version, txId, mergeIdx, some executionContext⟩
  else pure ⟨version, txId, mergeIdx, none⟩

def encode (hash : DataHash) (inputs : Inputs) : Bytes :=
  leBytes 2 inputs.version.toNat ++ (inputs.txId.val ++ (leBytes 4 inputs.mergeIdx.toNat ++
    match inputs.executionInput with
    | some exec => ExecutionContext.encode hash exec
    | none => []))

end InputCommitment

/-- What a successful handler leaves behind. -/
structure Effects where
  exits : ExitSink
  depositSpkHash : Hash
  resources : List Resource

inductive OutputResourceCommitment where
  | changed (hash : Hash)
  | unchanged
  deriving DecidableEq

namespace OutputResourceCommitment

def CHANGED : UInt8 := 0x01
def UNCHANGED : UInt8 := 0x00

def decode : Reader Error OutputResourceCommitment := do
  let flag ← Reader.byte "flag"
  if flag = CHANGED then do
    let hash ← Reader.array 32 "hash"
    pure (.changed hash)
  else if flag = UNCHANGED then pure .unchanged
  else Reader.fail (.decode "invalid resource output flag")

def toBytes : OutputResourceCommitment → Bytes
  | .changed hash => CHANGED :: hash.val
  | .unchanged => [UNCHANGED]

def ofResource (hash : DataHash) (r : Resource) : OutputResourceCommitment :=
  if r.dirty then .changed (dataHash hash r.data) else .unchanged

def encode (hash : DataHash) (r : Resource) : Bytes := (ofResource hash r).toBytes

end OutputResourceCommitment

/-- The output part. Resource commitments are an iterator over the rest of the
journal, so their number is not fixed by decoding. -/
inductive OutputCommitment where
  | success (exits : Exits) (depositSpkHash : Hash) (resources : Bytes)
  | error (e : Error)
  deriving DecidableEq

namespace OutputCommitment

def SUCCESS : UInt8 := 0x00
def ERROR : UInt8 := 0x01

/-- The resource iterator copies the cursor, so the rest stays unread here. -/
def decode : Reader Error OutputCommitment := do
  let discriminant ← Reader.byte "discriminant"
  if discriminant = SUCCESS then do
    let exits ← Reader.blob "exits"
    let depositSpkHash ← Reader.array 32 "deposit_spk_hash"
    let resources ← get
    pure (.success exits depositSpkHash resources)
  else if discriminant = ERROR then do
    let e ← Error.decodeError
    pure (.error e)
  else Reader.fail (.decode "invalid output commitment discriminant")

def encode (hash : DataHash) : Except Error Effects → Bytes
  | .ok effects =>
    SUCCESS :: (writeBlob effects.exits.buf ++ (effects.depositSpkHash.val ++
      effects.resources.flatMap (OutputResourceCommitment.encode hash)))
  | .error e => ERROR :: e.encode

end OutputCommitment

structure JournalEntries where
  inputCommitment : InputCommitment
  outputCommitment : OutputCommitment
  deriving DecidableEq

def JournalEntries.decode (buf : Bytes) : Result JournalEntries := do
  let (inputCommitment, rest) ← InputCommitment.decode.run buf
  let (outputCommitment, _) ← OutputCommitment.decode.run rest
  pure ⟨inputCommitment, outputCommitment⟩

/-- A stream of length-prefixed journals, fused on a decode error. -/
abbrev Journals := Bytes

def Journals.iter (buf : Journals) : List (Result Bytes) :=
  (Reader.blob "journal" : Reader Error Bytes).items buf

end Vprogs.Abi
