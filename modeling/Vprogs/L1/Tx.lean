import Vprogs.Abi.Withdrawal

/-!
Base chain transactions, as far as a lane and its covenant read them, and the
serialization a version 1 transaction id commits to next to the payload.
-/
namespace Vprogs.L1

open Abi

structure Outpoint where
  txId : Hash
  index : UInt32
  deriving DecidableEq

/-- A covenant output names the input that authorized it and the covenant. -/
structure CovenantBinding where
  authInput : UInt16
  covenantId : Hash
  deriving DecidableEq

structure TxInput where
  prev : Outpoint
  sigScript : Bytes
  sequence : UInt64
  deriving DecidableEq

structure TxOutput where
  value : UInt64
  spkVersion : UInt16
  spk : Bytes
  covenant : Option CovenantBinding
  deriving DecidableEq

structure Tx where
  version : UInt16
  inputs : List TxInput
  outputs : List TxOutput
  lockTime : UInt64
  subnetworkId : Arr 20
  gas : UInt64
  payload : Bytes
  deriving DecidableEq

namespace TxInput

/-- An input without its signature script. -/
def restBytes (i : TxInput) : Bytes :=
  i.prev.txId.val ++ (leBytes 4 i.prev.index.toNat ++ (leBytes 8 0 ++ leBytes 8 i.sequence.toNat))

end TxInput

namespace TxOutput

def covenantBytes : Option CovenantBinding → Bytes
  | none => [0]
  | some b => 1 :: (leBytes 2 b.authInput.toNat ++ b.covenantId.val)

def bytes (o : TxOutput) : Bytes :=
  leBytes 8 o.value.toNat ++ (leBytes 2 o.spkVersion.toNat ++ (leBytes 8 o.spk.length ++
    (o.spk ++ covenantBytes o.covenant)))

end TxOutput

/-- Everything but payload and signature scripts. -/
def Tx.restPreimage (tx : Tx) : Bytes :=
  leBytes 2 tx.version.toNat ++ (leBytes 8 tx.inputs.length ++ (tx.inputs.flatMap TxInput.restBytes ++
    (leBytes 8 tx.outputs.length ++ (tx.outputs.flatMap TxOutput.bytes ++
      (leBytes 8 tx.lockTime.toNat ++ (tx.subnetworkId.val ++ (leBytes 8 tx.gas.toNat ++
        leBytes 8 0)))))))

end Vprogs.L1
