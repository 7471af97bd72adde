import Vprogs.Runtime.State

/-!
Parsers over the serialization of a version 1 transaction without payload and
signature scripts, and the recovery of a pay-to-pubkey key from the output that
an input spends. The guest's addresses are 32 bits wide, so a 64-bit length
read from the wire keeps its low 32 bits.
-/
namespace Vprogs.Runtime

open Abi

/-- `as usize` on the guest. -/
def asUsize (n : UInt64) : Nat := n.toNat % 2 ^ 32

def skip (n : Nat) (field : String) : Reader Error Unit := do
  let _ ← Reader.bytes n field
  pure ()

def skipInput : Reader Error Unit := do
  skip 32 "input.prev_tx_id"
  skip 4 "input.prev_index"
  let sigScriptLen ← Reader.leU64 "input.sig_script_len"
  skip (asUsize sigScriptLen) "input.sig_script"
  skip 8 "input.sequence"

/-- Runs a reader a number of times for its effect on the cursor. -/
def repeatSkip (r : Reader Error Unit) : Nat → Reader Error Unit
  | 0 => pure ()
  | n + 1 => do
      r
      repeatSkip r n

def readInputOutpointAt (idx : UInt32) : Reader Error (Hash × UInt32) := do
  skip 2 "tx.version"
  let nInputs ← Reader.leU64 "tx.n_inputs"
  if nInputs.toNat ≤ idx.toNat then Reader.failDecode "input_idx out of range"
  else do
    repeatSkip skipInput idx.toNat
    let prevTxId ← Reader.array 32 "input.prev_tx_id"
    let prevIndex ← Reader.leU32 "input.prev_index"
    pure (prevTxId, prevIndex)

def parseInputOutpointAt (restPreimage : Bytes) (idx : UInt32) : Result (Hash × UInt32) := do
  let (outpoint, _) ← (readInputOutpointAt idx).run restPreimage
  pure outpoint

structure OutputData where
  value : UInt64
  spkVersion : UInt16
  spk : Bytes
  deriving DecidableEq

def readOutput : Reader Error OutputData := do
  let value ← Reader.leU64 "output.value"
  let spkVersion ← Reader.leU16 "output.spk_version"
  let spkLen ← Reader.leU64 "output.spk_len"
  let spk ← Reader.bytes (asUsize spkLen) "output.spk"
  let hasCovenant ← Reader.byte "output.has_covenant"
  if hasCovenant ≠ 0 then do
    skip 2 "output.auth_input"
    skip 32 "output.covenant_id"
    pure ⟨value, spkVersion, spk⟩
  else pure ⟨value, spkVersion, spk⟩

/-- Reads `before` outputs and returns the one after them. -/
def readOutputAt : Nat → Reader Error OutputData
  | 0 => readOutput
  | before + 1 => do
      let _ ← readOutput
      readOutputAt before

def readOutputAtIndexV1 (outputIndex : UInt32) : Reader Error OutputData := do
  let version ← Reader.leU16 "tx.version"
  if version ≠ 1 then Reader.failDecode "rest_preimage: unsupported tx version"
  else do
    let nInputs ← Reader.leU64 "tx.n_inputs"
    repeatSkip skipInput nInputs.toNat
    let nOutputs ← Reader.leU64 "tx.n_outputs"
    if nOutputs.toNat ≤ outputIndex.toNat then Reader.failDecode "output_index out of range"
    else readOutputAt outputIndex.toNat

def parseOutputAtIndexV1 (restPreimage : Bytes) (outputIndex : UInt32) : Result OutputData := do
  let (output, _) ← (readOutputAtIndexV1 outputIndex).run restPreimage
  pure output

/-! ### Witnesses -/

def txIdV1FromDigest (keyedHash : KeyedHash) (payloadDigest : Hash) (restPreimage : Bytes) : Hash :=
  keyedHash KEY_TRANSACTION_V1_ID
    (payloadDigest.val ++ (keyedHash KEY_TRANSACTION_REST restPreimage).val)

def extractP2pkPubkey (spk : Bytes) : Option Hash :=
  if h : spk.length = 34 ∧ spk[0]? = some 0x20 ∧ spk[33]? = some 0xac then
    some ⟨(spk.drop 1).take 32, by simp [h.1]⟩
  else none

def recoverPrevTxV1P2pkPubkey (P : Primitives) (currentTxRestPreimage : Bytes) (inputIdx : UInt8)
    (witnessRestPreimage : Bytes) (witnessPayloadDigest : Hash) : Result (Option Hash) := do
  let (expectedPrevTxId, outputIndex) ←
    parseInputOutpointAt currentTxRestPreimage (UInt32.ofNat inputIdx.toNat)
  if txIdV1FromDigest P.keyedHash witnessPayloadDigest witnessRestPreimage ≠ expectedPrevTxId then
    .error (.decode "auth.witness: prev_tx witness does not match outpoint")
  else do
    let output ← parseOutputAtIndexV1 witnessRestPreimage outputIndex
    pure (extractP2pkPubkey output.spk)

end Vprogs.Runtime
