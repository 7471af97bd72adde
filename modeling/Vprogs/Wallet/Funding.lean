import Vprogs.Wallet.Pricing

/-!
Funding a transaction: the shortest prefix of the candidates that pays for it. Each prefix is
tried with its change output and, where that may be left out, without it; what an attempt
fell short of is kept for the error of the whole walk.
-/
namespace Vprogs.Wallet

structure Funding where
  /-- How many leading candidates are spent. -/
  inputs : Nat
  fee : Nat
  /-- The change output's value, or none where it is dropped into the fee. -/
  change : Option Nat
  deriving DecidableEq

/-- What the attempts so far have recorded. -/
structure Walk where
  shortfall : Option (Nat × Nat)
  infeasible : Option BuildError
  degraded : Option Funding
  deriving DecidableEq

def Walk.new : Walk := ⟨none, none, none⟩

inductive ControlFlow where
  | stop (funding : Funding)
  | next (walk : Walk)
  deriving DecidableEq

section
variable {Tx : Type} (params : Params Tx) (policy : FeePolicy) (changeRequired : Bool)
  (probe : Nat → Option Nat → Tx × List UtxoCell)

/-- The change-dropped layout of prefix `n`. -/
def tryDropped (walk : Walk) (n available : Nat) : Outcome BuildError ControlFlow := do
  let (dropped, droppedEntries) := probe n none
  let requirement ← droppedRequiredFee params policy dropped droppedEntries
  if available < requirement.floor then
    pure (.next { walk with shortfall := some (available, requirement.required) })
  else do
    let storageMass ← calcStorageMass params droppedEntries (params.outputs dropped)
    if storageMass > params.storageLimit then
      pure (.next { walk with infeasible := some (.storageInfeasible storageMass params.storageLimit) })
    else if available < requirement.required then
      let degraded := match policy with
        | .floor => walk.degraded
        | .targetFeerate _ => some ⟨n, available, none⟩
      pure (.next { walk with degraded := degraded, shortfall := some (available, requirement.required) })
    else pure (.stop ⟨n, available, none⟩)

/-- No change fits: what the fixed outputs weigh is reported. -/
def recordInfeasible (walk : Walk) (inputCells outputCells : List UtxoCell) : Outcome BuildError ControlFlow := do
  let _ ← orPanic outputCells.getLast? "attempt to subtract with overflow"
  let storage ← calcStorageMass params inputCells outputCells.dropLast
  pure (.next { walk with infeasible := some (.storageInfeasible storage params.storageLimit) })

/-- The requirement crossed the cap of prefix `n`. -/
def crossed (walk : Walk) (n floor available viable cap crossingFee : Nat) : Outcome BuildError ControlFlow :=
  let degraded := match policy with
    | .floor => walk.degraded
    | .targetFeerate _ => if floor ≤ cap then some ⟨n, cap, some viable⟩ else walk.degraded
  let walk := { walk with degraded := degraded }
  if changeRequired then
    pure (.next { walk with shortfall := some (available, min (crossingFee + viable) U64_MAX) })
  else tryDropped params policy probe walk n available

def attempt (walk : Walk) (n : Nat) : Outcome BuildError ControlFlow := do
  let (tx, entries) := probe n (some 0)
  let entriesTotal ← sumU64 entries
  let outputsTotal ← sumU64 (params.outputs tx)
  let available := entriesTotal - outputsTotal
  let floor ← minFee params tx
  if available < floor then
    if changeRequired then pure (.next { walk with shortfall := some (available, floor) })
    else tryDropped params policy probe walk n available
  else
    match ← minViableChange params entries (params.outputs tx) with
    | none => recordInfeasible params walk entries (params.outputs tx)
    | some viable => do
        let cap := available - viable
        match ← requiredFee policy floor available cap (priorityMass params tx entries (params.outputs tx)) with
        | .ok fee => do
            let change ← subU64 available fee
            pure (.stop ⟨n, fee, some change⟩)
        | .error crossingFee => crossed params policy changeRequired probe walk n floor available viable cap crossingFee

end

def Walk.conclude (walk : Walk) : Outcome BuildError Funding :=
  match walk.degraded with
  | some funding => .ok funding
  | none =>
    match walk.shortfall with
    | some (available, required) => .error (.err (.insufficientFunds available required))
    | none =>
      match walk.infeasible with
      | some e => .error (.err e)
      | none => .error (.panic
          "candidates is non-empty: every attempt records a shortfall or an infeasibility")

section
variable {Tx : Type} (params : Params Tx) (policy : FeePolicy) (changeRequired : Bool)
  (probe : Nat → Option Nat → Tx × List UtxoCell)

def walkPrefixes : List Nat → Walk → Outcome BuildError Funding
  | [], walk => walk.conclude
  | n :: prefixes, walk => do
      match ← attempt params policy changeRequired probe walk n with
      | .stop funding => pure funding
      | .next walk => walkPrefixes prefixes walk

def fund (candidates : List UtxoCell) : Outcome BuildError Funding :=
  if candidates.isEmpty then do
    let (tx, _) := probe 0 (if changeRequired then some 0 else none)
    let required ← minFee params tx
    .error (.err (.insufficientFunds 0 required))
  else walkPrefixes params policy changeRequired probe (List.range' 1 candidates.length) .new

end

/-! ### Layouts -/

/-- A builder's layouts over its candidates. The inputs are those the builder fixes and the
first `n` candidates, in some order; the outputs are those it fixes, and the change last where
there is one. Fees depend on the bytes of a layout, which the change's value leaves alone. -/
structure Probe {Tx : Type} (params : Params Tx) (candidates : List UtxoCell) where
  run : Nat → Option Nat → Tx × List UtxoCell
  fixedInputs : List UtxoCell
  fixedOutputs : List UtxoCell
  changePlurality : Nat
  entries : Nat → List UtxoCell
  entries_perm : ∀ n, (entries n).Perm (fixedInputs ++ candidates.take n)
  run_entries : ∀ n change, (run n change).2 = entries n
  run_kept : ∀ n c, params.outputs (run n (some c)).1 = fixedOutputs ++ [⟨changePlurality, c⟩]
  run_dropped : ∀ n, params.outputs (run n none).1 = fixedOutputs
  compute_kept : ∀ n c, params.computeMass (run n (some c)).1 = params.computeMass (run n (some 0)).1
  transient_kept : ∀ n c,
    params.normalizedTransient (run n (some c)).1 = params.normalizedTransient (run n (some 0)).1

def total (cells : List UtxoCell) : Nat := (cells.map UtxoCell.amount).sum

namespace Probe

variable {Tx : Type} {params : Params Tx} {candidates : List UtxoCell} (probe : Probe params candidates)

/-- What the inputs of prefix `n` bring in. -/
def brought (n : Nat) : Nat := total (probe.fixedInputs ++ candidates.take n)

/-- The minimum fee of a layout. -/
def floor (n : Nat) (change : Option Nat) : Nat :=
  MIN_FEERATE_PER_GRAM *
    max (params.computeMass (probe.run n change).1) (params.normalizedTransient (probe.run n change).1)

/-- The storage mass of a layout. -/
def storage (n : Nat) (change : Option Nat) : Nat :=
  (params.storageMass (probe.entries n) (params.outputs (probe.run n change).1)).getD U64_MAX

/-- What the funding of a builder rests on: no fixed output is empty, sums fit 64 bits, every
layout has some mass and its fee fits, storage mass falls as the change grows and once more
when the change is dropped. -/
structure Regular : Prop where
  nonzero : ∀ o ∈ probe.fixedOutputs, o.amount ≠ 0
  inputsFit : total (probe.fixedInputs ++ candidates) < 2 ^ 64
  outputsFit : total probe.fixedOutputs < 2 ^ 64
  floorPos : ∀ n change, 0 < probe.floor n change
  floorFits : ∀ n change, probe.floor n change < 2 ^ 64
  storageMono : ∀ n c c', 1 ≤ c → c ≤ c' → probe.storage n (some c') ≤ probe.storage n (some c)
  storageDropped : ∀ n c, 1 ≤ c → probe.storage n none ≤ probe.storage n (some c)

/-- A change output the layout can carry. -/
def Viable (n change : Nat) : Prop :=
  1 ≤ change ∧ change ≤ params.maxSompi ∧ probe.storage n (some change) ≤ params.storageLimit

/-- Prefix `n` pays with its change kept. -/
structure Kept (n change fee : Nat) : Prop where
  balance : probe.brought n = total probe.fixedOutputs + change + fee
  fee : probe.floor n (some change) ≤ fee
  storage : probe.storage n (some change) ≤ params.storageLimit
  viable : ∃ least, IsLeast {c | probe.Viable n c} least ∧ least ≤ change

/-- Prefix `n` pays with its change dropped. -/
structure Dropped (n fee : Nat) : Prop where
  balance : probe.brought n = total probe.fixedOutputs + fee
  fee : probe.floor n none ≤ fee
  storage : probe.storage n none ≤ params.storageLimit

/-- Some layout of prefix `n` pays. -/
def Admits (changeRequired : Bool) (n : Nat) : Prop :=
  (∃ change fee, probe.Kept n change fee) ∨ changeRequired = false ∧ ∃ fee, probe.Dropped n fee

/-- The funding is a layout that pays, with its change dropped only where it has to be. -/
def Pays (changeRequired : Bool) (funding : Funding) : Prop :=
  match funding.change with
  | some change => probe.Kept funding.inputs change funding.fee
  | none => changeRequired = false ∧ probe.Dropped funding.inputs funding.fee ∧
      ∀ change fee, ¬ probe.Kept funding.inputs change fee

/-- The funding pays from the shortest prefix that can. -/
def PaysShortest (changeRequired : Bool) (funding : Funding) : Prop :=
  funding.inputs ≤ candidates.length ∧ probe.Pays changeRequired funding ∧
    ∀ n < funding.inputs, ¬ probe.Admits changeRequired n

/-- The layout with change pays the floor but no change fits, and the one without would do. -/
structure Overlooked (changeRequired : Bool) (n : Nat) : Prop where
  droppable : changeRequired = false
  dropped : ∃ fee, probe.Dropped n fee
  floor : total probe.fixedOutputs + probe.floor n (some 0) ≤ probe.brought n
  unviable : ∀ change, ¬ probe.Viable n change

end Probe

end Vprogs.Wallet
