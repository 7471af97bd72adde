import Vprogs.Canonical.Bits
import Vprogs.Codec.Bytes
import Mathlib.Order.Lattice.Nat

/-!
The manager of the canonical chain: a dense log of block metadata that gives new
blocks the next id and returning ones their old id, over a chain it drives. The chain
is a parameter: the bit oracle, or the plain set it stands for.
-/
namespace Vprogs.Canonical

class BatchMetadata (M : Type) where
  blockHash : M → Arr 32
  parentId : M → Nat

/-- A block that is hashed to its number. -/
structure NumberedBlock where
  number : Nat
  parent : Nat
  deriving DecidableEq, Inhabited

instance : BatchMetadata NumberedBlock where
  blockHash b := ⟨leBytes 8 b.number ++ List.replicate 24 0, by simp⟩
  parentId := NumberedBlock.parent

/-- What the manager asks of the chain it drives. -/
structure Oracle (C : Type) where
  tip : C → Nat
  append : C → Nat → Option C
  rollback : C → Nat → Option C
  finalize : C → Nat → C

def CanonicalChain.oracle (debug : Bool) : Oracle CanonicalChain where
  tip := tip
  append c := c.append debug
  rollback c := c.rollback debug
  finalize := CanonicalChain.finalize

/-- The set of canonical ids; the tip is its greatest. -/
def plain : Oracle (Finset Nat) where
  tip s := s.sup id
  append s i := some (insert i s)
  rollback s newTip := some (s.filter (· ≤ newTip))
  finalize s _ := s

structure AppendOutcome where
  id : Nat
  isNew : Bool
  deriving DecidableEq

structure CanonicalChainManager (C M : Type) where
  chain : C
  /-- Lowest live id. -/
  base : Nat := 1
  /-- Metadata of the live ids in order, from `base`. -/
  entries : List M := []
  index : Arr 32 → Option Nat := fun _ => none

namespace CanonicalChainManager

open BatchMetadata

variable {C M : Type} [BatchMetadata M] (O : Oracle C) (m : CanonicalChainManager C M)

omit [BatchMetadata M] in
/-- The highest id given out. -/
def seen : Nat := m.base + m.entries.length - 1

omit [BatchMetadata M] in
def metadata (id : Nat) : Option M := if m.base ≤ id then m.entries[id - m.base]? else none

/-- Logs the metadata at the next dense id. -/
def push (metadata : M) : Nat × CanonicalChainManager C M :=
  let id := m.base + m.entries.length
  (id, { m with
    index := Function.update m.index (blockHash metadata) (some id)
    entries := m.entries ++ [metadata] })

/-- A returning block is canonical again under its id, if that is above the tip. -/
def append (metadata : M) : Option (AppendOutcome × CanonicalChainManager C M) :=
  match m.index (blockHash metadata) with
  | some id =>
    if O.tip m.chain < id then
      (O.append m.chain id).map fun chain => (⟨id, false⟩, { m with chain := chain })
    else some (⟨id, false⟩, m)
  | none =>
    let pushed := m.push metadata
    (O.append pushed.2.chain pushed.1).map fun chain =>
      (⟨pushed.1, true⟩, { pushed.2 with chain := chain })

omit [BatchMetadata M] in
def rollback (newTip : Nat) : Option (CanonicalChainManager C M) :=
  (O.rollback m.chain newTip).map fun chain => { m with chain := chain }

/-- Drops the log entries below `below` and their hashes. -/
def dropEntries (below : Nat) (chain : C) (base : Nat) (index : Arr 32 → Option Nat) :
    List M → CanonicalChainManager C M
  | [] => ⟨chain, base, [], index⟩
  | metadata :: entries =>
    if base < below then
      dropEntries below chain (base + 1) (Function.update index (blockHash metadata) none) entries
    else ⟨chain, base, metadata :: entries, index⟩

def finalize (below : Nat) : CanonicalChainManager C M :=
  dropEntries below (O.finalize m.chain below) m.base m.index m.entries

def step : Op M → Option (CanonicalChainManager C M)
  | .append metadata => (m.append O metadata).map Prod.snd
  | .rollback newTip => m.rollback O newTip
  | .finalize below => some (m.finalize O below)

/-! ### The log -/

omit [BatchMetadata M] in
/-- Ids are positive, and none has been given out above the highest. -/
structure Logged (m : CanonicalChainManager C M) : Prop where
  base : 0 < m.base
  index : ∀ hash id, m.index hash = some id → id ≤ m.seen

variable {O m}

theorem Logged.push (h : m.Logged) (metadata : M) :
    (m.push metadata).2.Logged ∧ (m.push metadata).1 = m.seen + 1 ∧
      (m.push metadata).2.seen = m.seen + 1 := by
  have hbase := h.base
  have hid : (m.push metadata).1 = m.seen + 1 := by
    change m.base + m.entries.length = m.base + m.entries.length - 1 + 1
    omega
  have hseen : (m.push metadata).2.seen = m.seen + 1 := by
    change m.base + (m.entries ++ [metadata]).length - 1 = m.base + m.entries.length - 1 + 1
    rw [List.length_append, List.length_singleton]
    omega
  refine ⟨⟨hbase, fun hash id hindex => ?_⟩, hid, hseen⟩
  change Function.update m.index (blockHash metadata) (some (m.push metadata).1) hash = some id at hindex
  rw [Function.update_apply] at hindex
  rw [hseen]
  split at hindex
  · cases hindex
    exact Nat.le_of_eq hid
  · exact Nat.le_succ_of_le (h.index hash id hindex)

/-- An append gives out the next id or one given out before. -/
theorem Logged.append (h : m.Logged) {metadata : M} {outcome : AppendOutcome}
    {m' : CanonicalChainManager C M} (hstep : m.append O metadata = some (outcome, m')) :
    m'.Logged ∧ outcome.id ≤ m'.seen ∧ m.seen ≤ m'.seen ∧
      (outcome.isNew = true → outcome.id = m.seen + 1) := by
  rw [CanonicalChainManager.append] at hstep
  split at hstep
  · next id hindex =>
    have hle := h.index _ id hindex
    split at hstep
    · have ⟨chain, _, heq⟩ := Option.map_eq_some_iff.mp hstep
      cases heq
      exact ⟨⟨h.base, h.index⟩, hle, Nat.le_refl _, fun hnew => by cases hnew⟩
    · cases hstep
      exact ⟨h, hle, Nat.le_refl _, fun hnew => by cases hnew⟩
  · have ⟨hlogged, hid, hseen⟩ := h.push metadata
    have ⟨chain, _, heq⟩ := Option.map_eq_some_iff.mp hstep
    cases heq
    refine ⟨⟨hlogged.base, hlogged.index⟩, ?_, ?_, fun _ => hid⟩
    · rw [hid]
      exact Nat.le_of_eq hseen.symm
    · exact Nat.le_trans (Nat.le_succ _) (Nat.le_of_eq hseen.symm)

/-- An append above the tip makes its id canonical. -/
theorem append_chain {metadata : M} {outcome : AppendOutcome} {m' : CanonicalChainManager C M}
    (habove : O.tip m.chain < outcome.id) (hstep : m.append O metadata = some (outcome, m')) :
    O.append m.chain outcome.id = some m'.chain := by
  rw [CanonicalChainManager.append] at hstep
  split at hstep
  · split at hstep
    · obtain ⟨chain, hchain, heq⟩ := Option.map_eq_some_iff.mp hstep
      cases heq
      exact hchain
    · next hbelow =>
      cases hstep
      exact absurd habove hbelow
  · obtain ⟨chain, hchain, heq⟩ := Option.map_eq_some_iff.mp hstep
    cases heq
    exact hchain

theorem Logged.dropEntries (below : Nat) {chain : C} {entries : List M} {base : Nat}
    {index : Arr 32 → Option Nat} (h : (⟨chain, base, entries, index⟩ : CanonicalChainManager C M).Logged) :
    (dropEntries below chain base index entries).Logged ∧
      (dropEntries below chain base index entries).seen = base + entries.length - 1 := by
  induction entries generalizing base index with
  | nil => exact ⟨h, rfl⟩
  | cons metadata entries ih =>
    rw [CanonicalChainManager.dropEntries]
    split
    · have hlogged : (⟨chain, base + 1, entries, Function.update index (blockHash metadata) none⟩ :
          CanonicalChainManager C M).Logged := by
        refine ⟨Nat.succ_pos _, fun hash id hindex => ?_⟩
        change Function.update index (blockHash metadata) none hash = some id at hindex
        rw [Function.update_apply] at hindex
        split at hindex
        · cases hindex
        · have hle : id ≤ base + (entries.length + 1) - 1 := h.index hash id hindex
          change id ≤ base + 1 + entries.length - 1
          omega
      have ⟨hdropped, hseen⟩ := ih hlogged
      refine ⟨hdropped, hseen.trans ?_⟩
      rw [List.length_cons]
      omega
    · exact ⟨h, rfl⟩

/-- What is dropped from the log does not depend on the chain. -/
theorem dropEntries_chain {C' : Type} (below : Nat) (chain : C) (chain' : C') (base : Nat)
    (index : Arr 32 → Option Nat) (entries : List M) :
    dropEntries below chain base index entries =
      { dropEntries below chain' base index entries with chain := chain } := by
  induction entries generalizing base index with
  | nil => rfl
  | cons metadata entries ih =>
    simp only [dropEntries]
    split
    · exact ih _ _
    · rfl

end CanonicalChainManager

end Vprogs.Canonical
