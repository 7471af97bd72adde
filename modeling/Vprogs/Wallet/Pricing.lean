import Mathlib.Algebra.GroupWithZero.Nat
import Mathlib.Algebra.Order.Group.Nat
import Vprogs.Bisect
import Vprogs.Outcome

/-!
Pricing a transaction layout: the fee the mempool asks for, the fee that reaches a target
rate, and the least change output that keeps the layout within the storage limit. The masses
themselves are the node's.
-/
namespace Vprogs.Wallet

/-- An input or an output, as far as storage mass depends on it. -/
structure UtxoCell where
  plurality : Nat
  amount : Nat
  deriving DecidableEq

def U64_MAX : Nat := 2 ^ 64 - 1

/-- What the wallet asks the node's own code about transactions. -/
structure Params (Tx : Type) where
  outputs : Tx → List UtxoCell
  computeMass : Tx → Nat
  normalizedTransient : Tx → Nat
  /-- Of the masses of the transaction and of its storage mass. -/
  normalizedMax : Tx → Nat → Nat
  /-- Of input and output cells, no output without value; fails on overflow. -/
  storageMass : List UtxoCell → List UtxoCell → Option Nat
  /-- The block-fit storage limit. -/
  storageLimit : Nat
  maxSompi : Nat
  maxSompi_pos : 0 < maxSompi
  maxSompi_lt : maxSompi < 2 ^ 64

/-- Why a builder could not fund its transaction from the given candidates. -/
inductive BuildError where
  | insufficientFunds (available required : Nat)
  | storageInfeasible (storageMass limit : Nat)
  deriving DecidableEq

/-! ### Checked arithmetic -/

def sumU64 (cells : List UtxoCell) : Outcome BuildError Nat :=
  let total := (cells.map UtxoCell.amount).sum
  if total < 2 ^ 64 then .ok total else .error (.panic "attempt to add with overflow")

def mulU64 (a b : Nat) : Outcome BuildError Nat :=
  if a * b < 2 ^ 64 then .ok (a * b) else .error (.panic "attempt to multiply with overflow")

def subU64 (a b : Nat) : Outcome BuildError Nat :=
  if b ≤ a then .ok (a - b) else .error (.panic "attempt to subtract with overflow")

/-! ### Fees -/

def MIN_FEERATE_PER_GRAM : Nat := 100

/-- The floor, or a rate with the least fee that pays it: of a floor and a priority mass. -/
inductive FeePolicy where
  | floor
  | targetFeerate (rateFee : Nat → Nat → Nat)

section
variable {Tx : Type} (params : Params Tx)

def minFee (tx : Tx) : Outcome BuildError Nat :=
  mulU64 MIN_FEERATE_PER_GRAM (max (params.computeMass tx) (params.normalizedTransient tx))

/-- An output without value divides by zero. -/
def calcStorageMass (inputs outputs : List UtxoCell) : Outcome BuildError Nat :=
  if outputs.any (·.amount = 0) then .error (.panic "attempt to divide by zero")
  else .ok ((params.storageMass inputs outputs).getD U64_MAX)

/-- The cells with the change slot, which is last, set to a value. -/
def withChange (outputs : List UtxoCell) (changeSlot : UtxoCell) (change : Nat) : List UtxoCell :=
  outputs.dropLast ++ [⟨changeSlot.plurality, change⟩]

/-- The change slot is the last cell. -/
def priorityMass (tx : Tx) (inputCells outputCells : List UtxoCell) (change : Nat) : Outcome BuildError Nat := do
  let changeSlot ← orPanic outputCells.getLast? "attempt to subtract with overflow"
  let storage ← calcStorageMass params inputCells (withChange outputCells changeSlot change)
  pure (params.normalizedMax tx storage)

structure DroppedRequirement where
  floor : Nat
  required : Nat

def droppedRequiredFee (policy : FeePolicy) (tx : Tx) (entries : List UtxoCell) :
    Outcome BuildError DroppedRequirement := do
  let floor ← minFee params tx
  match policy with
  | .floor => pure ⟨floor, floor⟩
  | .targetFeerate rateFee => do
      let storage ← calcStorageMass params entries (params.outputs tx)
      pure ⟨floor, rateFee floor (params.normalizedMax tx storage)⟩

end

/-- The fixpoint of the rate's fee, from `fee` on: the fee reached, or the one that crossed
the cap. -/
def rateFixpoint (rateFee : Nat → Nat → Nat) (floor available cap : Nat) (pm : Nat → Outcome BuildError Nat) :
    Nat → Nat → Outcome BuildError (Except Nat Nat)
  | 0, fee => .ok (.error fee)
  | steps + 1, fee => do
      let change ← subU64 available fee
      let mass ← pm change
      let required := rateFee floor mass
      if required > cap then pure (.error required)
      else if required ≤ fee then pure (.ok fee)
      else rateFixpoint rateFee floor available cap pm steps required

def requiredFee (policy : FeePolicy) (floor available cap : Nat) (pm : Nat → Outcome BuildError Nat) :
    Outcome BuildError (Except Nat Nat) :=
  if floor > cap then .ok (.error floor)
  else
    match policy with
    | .floor => .ok (.ok floor)
    | .targetFeerate rateFee => rateFixpoint rateFee floor available cap pm 256 floor

/-! ### Viable change -/

section
variable {Tx : Type} (params : Params Tx)

/-- Storage mass with a value in the change slot, which is the last output. -/
def storageAt (inputs outputs : List UtxoCell) (changeSlot : UtxoCell) (change : Nat) : Outcome BuildError Nat :=
  calcStorageMass params inputs (withChange outputs changeSlot change)

def fitsAt (inputs outputs : List UtxoCell) (changeSlot : UtxoCell) (change : Nat) : Outcome BuildError Bool := do
  let storage ← storageAt params inputs outputs changeSlot change
  pure (decide (storage ≤ params.storageLimit))

/-- The smallest change value within the storage limit. -/
def minViableChange (inputs outputs : List UtxoCell) : Outcome BuildError (Option Nat) :=
  match outputs.getLast? with
  | none => .ok none
  | some changeSlot => do
      if ← fitsAt params inputs outputs changeSlot params.maxSompi then do
        let lo ← bisect (fitsAt params inputs outputs changeSlot) 64 1 params.maxSompi
        pure (some lo)
      else pure none

end

/-! ### Without overflow -/

theorem sumU64_eq {cells : List UtxoCell} (h : (cells.map UtxoCell.amount).sum < 2 ^ 64) :
    sumU64 cells = .ok (cells.map UtxoCell.amount).sum :=
  if_pos h

theorem mulU64_eq {a b : Nat} (h : a * b < 2 ^ 64) : mulU64 a b = .ok (a * b) := if_pos h

theorem subU64_eq {a b : Nat} (h : b ≤ a) : subU64 a b = .ok (a - b) := if_pos h

section
variable {Tx : Type} {params : Params Tx}

theorem calcStorageMass_eq {inputs outputs : List UtxoCell} (h : ∀ o ∈ outputs, o.amount ≠ 0) :
    calcStorageMass params inputs outputs = .ok ((params.storageMass inputs outputs).getD U64_MAX) := by
  refine if_neg ?_
  rw [List.any_eq_true]
  rintro ⟨o, ho, hzero⟩
  exact h o ho (of_decide_eq_true hzero)

/-- Where storage mass falls as the change grows, the search finds the least change that fits,
or finds that none does. -/
theorem minViableChange_spec {inputs fixed : List UtxoCell} (changeSlot : UtxoCell) {mass : Nat → Nat}
    (hfixed : ∀ o ∈ fixed, o.amount ≠ 0)
    (hmass : ∀ c, (params.storageMass inputs (fixed ++ [⟨changeSlot.plurality, c⟩])).getD U64_MAX = mass c)
    (hmono : ∀ c c', 1 ≤ c → c ≤ c' → mass c' ≤ mass c) :
    ∃ viable, minViableChange params inputs (fixed ++ [changeSlot]) = .ok viable ∧
      match viable with
      | some v => IsLeast {c | 1 ≤ c ∧ mass c ≤ params.storageLimit} v ∧ v ≤ params.maxSompi
      | none => ∀ c, 1 ≤ c → c ≤ params.maxSompi → params.storageLimit < mass c := by
  have hfits : ∀ c, 1 ≤ c → fitsAt params inputs (fixed ++ [changeSlot]) changeSlot c =
      .ok (decide (mass c ≤ params.storageLimit)) := by
    intro c hc
    rw [fitsAt, storageAt, withChange, List.dropLast_concat, calcStorageMass_eq, hmass]
    · rfl
    · exact List.forall_mem_append.mpr ⟨hfixed, List.forall_mem_singleton.mpr (by dsimp only; omega)⟩
  have hrange : params.maxSompi - 1 < 2 ^ 64 := by
    have := params.maxSompi_lt
    omega
  rw [minViableChange, List.getLast?_concat]
  dsimp only
  rw [hfits _ params.maxSompi_pos, ok_bind]
  by_cases htop : mass params.maxSompi ≤ params.storageLimit
  · have ⟨least, hrun, hleast⟩ := bisect_isLeast params.maxSompi_pos hrange (fun k hk _ => hfits k hk)
      (fun j k hj hjk _ hp => Nat.le_trans (hmono j k hj hjk) hp) htop
    refine ⟨some least, ?_, hleast, hleast.2 ⟨params.maxSompi_pos, htop⟩⟩
    rw [decide_eq_true htop, if_pos rfl, hrun]
    rfl
  · refine ⟨none, ?_, fun c hc hle => ?_⟩
    · rw [decide_eq_false htop]
      rfl
    · have := hmono c params.maxSompi hc hle
      omega

end

end Vprogs.Wallet
