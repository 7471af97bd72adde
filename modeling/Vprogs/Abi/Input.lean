import Vprogs.Abi.Withdrawal

/-!
Inputs of the transaction processor: what the host writes for one lane
transaction and what the guest decodes from it. Resource contents are one byte
string (the source keeps an input slice and promotes it to the heap when it
grows; both are read through the same accessor).
-/
namespace Vprogs.Abi

abbrev ResourceId := Arr 32

inductive AccessType where
  | read
  | write
  deriving DecidableEq

def AccessType.toByte : AccessType → UInt8
  | read => 0
  | write => 1

structure AccessMetadata where
  resourceId : ResourceId
  accessType : AccessType
  deriving DecidableEq

namespace AccessMetadata

def SIZE : Nat := 33

def encode (am : AccessMetadata) : Bytes :=
  am.resourceId.val ++ [am.accessType.toByte]

/-- The validity check of the zero-copy cast: any id, and one of two tags. -/
def cast (bs : Bytes) : Option AccessMetadata :=
  if h : (bs.take 32).length = 32 then
    match bs.drop 32 with
    | [0] => some ⟨⟨bs.take 32, h⟩, .read⟩
    | [1] => some ⟨⟨bs.take 32, h⟩, .write⟩
    | _ => none
  else none

/-- Adjacent ids are strictly ascending. -/
def ascending : List AccessMetadata → Bool
  | a :: b :: rest => decide (a.resourceId.val < b.resourceId.val) && ascending (b :: rest)
  | _ => true

def decodeSlice {ε : Type} [FromCodec ε] : Reader ε (List AccessMetadata) := do
  let view ← Reader.sliceAs SIZE cast "access_metadata"
  if ascending view then pure view
  else Reader.failDecode "access metadata not strictly ascending"

/-- The bridge's reading of a payload: a malformed list means no accesses. -/
def ofPayload (payload : Bytes) : List AccessMetadata :=
  match (decodeSlice : Reader CodecError (List AccessMetadata)).run payload with
  | .ok (accesses, _) => accesses
  | .error _ => []

end AccessMetadata

structure Payload where
  bytes : Bytes
  accessMetadata : List AccessMetadata
  ixData : Bytes
  deriving DecidableEq

def Payload.decode (bytes : Bytes) : Result Payload := do
  let (accessMetadata, ixData) ← AccessMetadata.decodeSlice.run bytes
  pure ⟨bytes, accessMetadata, ixData⟩

/-- Keyed hashing, with the keys of a version 1 transaction id. -/
abbrev KeyedHash := Hash → Bytes → Hash

def domainKey (s : String) : Hash :=
  ⟨(utf8 s ++ List.replicate 32 0).take 32, by simp⟩

def KEY_PAYLOAD_DIGEST : Hash := domainKey "PayloadDigest"
def KEY_TRANSACTION_REST : Hash := domainKey "TransactionRest"
def KEY_TRANSACTION_V1_ID : Hash := domainKey "TransactionV1Id"

def txIdV1 (keyedHash : KeyedHash) (payload restPreimage : Bytes) : Hash :=
  keyedHash KEY_TRANSACTION_V1_ID
    ((keyedHash KEY_PAYLOAD_DIGEST payload).val ++ (keyedHash KEY_TRANSACTION_REST restPreimage).val)

structure Transaction where
  payload : Payload
  restPreimage : Bytes
  deriving DecidableEq

namespace Transaction

def V1 : UInt16 := 1

def id (keyedHash : KeyedHash) (tx : Transaction) : Hash :=
  txIdV1 keyedHash tx.payload.bytes tx.restPreimage

def readBody : Reader Error Transaction := do
  let payloadBytes ← Reader.blob "payload"
  let payload ← StateT.lift (Payload.decode payloadBytes)
  let restPreimage ← Reader.blob "rest_preimage"
  pure ⟨payload, restPreimage⟩

/-- Reads the transaction from its own length-prefixed part of the buffer. -/
def decode : Reader Error Transaction := do
  let txBuf ← Reader.blob "tx"
  let (tx, _) ← StateT.lift (readBody.run txBuf)
  pure tx

def encode (payload restPreimage : Bytes) : Bytes :=
  leBytes 4 (4 + payload.length + 4 + restPreimage.length) ++
    (writeBlob payload ++ writeBlob restPreimage)

end Transaction

structure Resource where
  accessMetadata : AccessMetadata
  data : Bytes
  index : UInt32
  isNew : Bool
  dirty : Bool
  deriving DecidableEq

namespace Resource

def id (r : Resource) : ResourceId := r.accessMetadata.resourceId

/-- Writing through `data_mut`: the slice keeps its length. -/
def setData (r : Resource) (data : Bytes) : Resource := { r with data := data, dirty := true }

def resize (r : Resource) (newLen : Nat) : Resource :=
  if newLen = r.data.length then r
  else if newLen < r.data.length then { r with data := r.data.take newLen, dirty := true }
  else { r with
    data := r.data ++ List.replicate (newLen - r.data.length) 0, dirty := true }

/-- Newness is derived from the data, never read from the wire. -/
def decode (am : AccessMetadata) : Reader Error Resource := do
  let index ← Reader.leU32 "index"
  let data ← Reader.blob "data"
  pure { accessMetadata := am, data := data, index := index, isNew := data.isEmpty, dirty := false }

def encode (index : UInt32) (data : Bytes) : Bytes := leBytes 4 index.toNat ++ writeBlob data

def decodeAll : List AccessMetadata → Reader Error (List Resource)
  | [] => pure []
  | am :: ams => do
      let r ← decode am
      let rs ← decodeAll ams
      pure (r :: rs)

end Resource

structure ExecutionInput where
  contextHash : Hash
  tx : Transaction
  resources : List Resource
  deriving DecidableEq

def ExecutionInput.decode : Reader Error ExecutionInput := do
  let contextHash ← Reader.array 32 "context_hash"
  let tx ← Transaction.decode
  let resources ← Resource.decodeAll tx.payload.accessMetadata
  pure ⟨contextHash, tx, resources⟩

structure Inputs where
  version : UInt16
  txId : Hash
  mergeIdx : UInt32
  executionInput : Option ExecutionInput
  deriving DecidableEq

def Inputs.decode : Reader Error Inputs := do
  let version ← Reader.leU16 "version"
  let txId ← Reader.array 32 "tx_id"
  let mergeIdx ← Reader.leU32 "merge_idx"
  if version = Transaction.V1 then do
    let executionInput ← ExecutionInput.decode
    pure ⟨version, txId, mergeIdx, some executionInput⟩
  else pure ⟨version, txId, mergeIdx, none⟩

end Vprogs.Abi
