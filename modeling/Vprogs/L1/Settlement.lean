import Vprogs.L1.Tx

/-!
Detection of a covenant's settlements among the transactions a block accepts. The first
output names the covenant, and the last four pushes of the first input's signature
script carry what the settlement advances the covenant to. The parser of scripts is the
base chain's and a parameter.
-/
namespace Vprogs.L1

open Abi

/-- An opcode as the parser yields it. -/
structure Opcode where
  isPush : Bool
  data : Bytes

structure SettlementInfo where
  txId : Hash
  containingBlock : Hash
  /-- Of the containing block. -/
  daaScore : UInt64
  /-- The chain block the settlement proves up to. -/
  blockProveTo : Hash
  newState : Hash
  newLaneTip : Hash
  deriving DecidableEq

/-- The last four pushes; only one of 32 bytes fills its slot. -/
structure Window where
  first : Option Hash := none
  second : Option Hash := none
  third : Option Hash := none
  last : Option Hash := none

def Window.slide (w : Window) (data : Bytes) : Window :=
  ⟨w.second, w.third, w.last, if h : data.length = 32 then some ⟨data, h⟩ else none⟩

def slidePushes : Window → List Opcode → Option Window
  | w, [] => some w
  | w, op :: ops => if op.isPush then slidePushes (w.slide op.data) ops else none

variable (parseScript : Bytes → Option (List Opcode)) (txId : Tx → Hash)

/-- The new lane tip, the new state and the block proved to. The redeem script is the last push. -/
def parseSettlementTail (script : Bytes) : Option (Hash × Hash × Hash) := do
  let ops ← parseScript script
  let window ← slidePushes {} ops
  pure (← window.first, ← window.second, ← window.third)

def Tx.settlementInfo (tx : Tx) (covenantId containingBlock : Hash) (daaScore : UInt64) :
    Option SettlementInfo := do
  let output ← tx.outputs.head?
  let binding ← output.covenant
  if binding.covenantId ≠ covenantId then none
  else
    let input ← tx.inputs.head?
    let (newLaneTip, newState, blockProveTo) ← parseSettlementTail parseScript input.sigScript
    pure ⟨txId tx, containingBlock, daaScore, blockProveTo, newState, newLaneTip⟩

end Vprogs.L1
