import Vprogs.Abi.Input
import Vprogs.Storage.Column
import Mathlib.Data.Prod.Lex

/-!
The state columns of the scheduler's store: the data of every resource at every
version, a pointer to its latest version, and for every batch the versions the
batch replaced. A batch writes its data and rollback pointers while it executes
and its latest pointers when it commits; a rollback walks the rollback pointers
back, and pruning deletes what no rollback can need.
-/
namespace Vprogs.Scheduler

open Abi

/-- A version or batch index, big end first, followed by the resource id. -/
abbrev VersionKey := Nat ×ₗ ResourceId

structure StateStore where
  versions : Column VersionKey Bytes := {}
  latest : Column ResourceId Nat := {}
  rollback : Column VersionKey Nat := {}
  metadata : Column Nat Unit := {}

/-- Writes to the columns, committed together. -/
structure WriteBatch where
  versions : List (Column.Write VersionKey Bytes) := []
  latest : List (Column.Write ResourceId Nat) := []
  rollback : List (Column.Write VersionKey Nat) := []
  metadata : List (Column.Write Nat Unit) := []

namespace WriteBatch

def append (wb wb' : WriteBatch) : WriteBatch :=
  ⟨wb.versions ++ wb'.versions, wb.latest ++ wb'.latest, wb.rollback ++ wb'.rollback,
    wb.metadata ++ wb'.metadata⟩

instance : Append WriteBatch := ⟨append⟩

/-- The writes of several items, one after the other. -/
def forEach {α : Type} (items : List α) (f : α → WriteBatch) : WriteBatch :=
  ⟨items.flatMap fun a => (f a).versions, items.flatMap fun a => (f a).latest,
    items.flatMap fun a => (f a).rollback, items.flatMap fun a => (f a).metadata⟩

end WriteBatch

namespace StateStore

variable (s : StateStore)

def version (v : Nat) (id : ResourceId) : Option Bytes := s.versions.get (toLex (v, id))

def latestPtr (id : ResourceId) : Option Nat := s.latest.get id

def rollbackPtr (batchIndex : Nat) (id : ResourceId) : Option Nat :=
  s.rollback.get (toLex (batchIndex, id))

/-- Whether the batch has committed and has not been pruned. -/
def hasMetadata (batchIndex : Nat) : Bool := (s.metadata.get batchIndex).isSome

/-- The rollback pointers of one batch. -/
def iterBatch (batchIndex : Nat) : List (ResourceId × Nat) :=
  (s.rollback.scan fun k => (ofLex k).1 == batchIndex).map fun e => ((ofLex e.1).2, e.2)

def commit (wb : WriteBatch) : StateStore where
  versions := s.versions.writeAll wb.versions
  latest := s.latest.writeAll wb.latest
  rollback := s.rollback.writeAll wb.rollback
  metadata := s.metadata.writeAll wb.metadata

theorem mem_iterBatch {batchIndex : Nat} {id : ResourceId} {old : Nat} :
    (id, old) ∈ s.iterBatch batchIndex ↔ s.rollbackPtr batchIndex id = some old := by
  rw [iterBatch, List.mem_map]
  constructor
  · intro ⟨⟨k, v⟩, hmem, heq⟩
    have ⟨hkey, hget⟩ := Column.mem_scan.mp hmem
    cases heq
    have hbatch : (ofLex k).1 = batchIndex := eq_of_beq hkey
    rw [rollbackPtr, ← hbatch]
    exact hget
  · intro h
    exact ⟨(toLex (batchIndex, id), old), Column.mem_scan.mpr ⟨beq_self_eq_true _, h⟩, rfl⟩

end StateStore

/-! ### Versions of a resource -/

/-- Data of a resource with the version that wrote it. -/
structure StateVersion where
  version : Nat
  data : Bytes
  deriving DecidableEq

namespace StateVersion

def empty : StateVersion := ⟨0, []⟩

def atVersion (s : StateStore) (version : Nat) (id : ResourceId) : StateVersion :=
  ⟨version, (s.version version id).getD []⟩

def fromLatestData (s : StateStore) (id : ResourceId) : StateVersion :=
  match s.latestPtr id with
  | none => empty
  | some version => atVersion s version id

variable (st : StateVersion) (id : ResourceId)

/-- The version a pointer to this state holds; 0 stands for no data. -/
def pointer : Nat := if st.data.isEmpty then 0 else st.version

def writeData : WriteBatch :=
  if st.data.isEmpty then {} else { versions := [.put (toLex (st.version, id)) st.data] }

def writeLatestPtr : WriteBatch :=
  if st.data.isEmpty then { latest := [.delete id] } else { latest := [.put id st.version] }

def writeRollbackPtr (batchIndex : Nat) : WriteBatch :=
  { rollback := [.put (toLex (batchIndex, id)) st.pointer] }

end StateVersion

/-! ### One batch -/

/-- What a batch read and wrote of one resource. -/
structure StateDiff where
  resourceId : ResourceId
  readState : StateVersion
  writtenState : StateVersion
  deriving DecidableEq

namespace StateDiff

variable (d : StateDiff)

def dataUpdated : Bool := decide (d.readState.version < d.writtenState.version)

/-- The data and the rollback pointer, if the version advanced. -/
def write (batchIndex : Nat) : WriteBatch :=
  if d.dataUpdated then
    d.writtenState.writeData d.resourceId ++ d.readState.writeRollbackPtr d.resourceId batchIndex
  else {}

end StateDiff

/-- The latest pointers of the updated resources and, unless the batch was restored,
its metadata. -/
def commitWrites (diffs : List StateDiff) (batchIndex : Nat) (restored : Bool) : WriteBatch :=
  WriteBatch.forEach (diffs.filter StateDiff.dataUpdated)
      (fun d => d.writtenState.writeLatestPtr d.resourceId) ++
    if restored then {} else { metadata := [.put batchIndex ()] }

/-! ### Rollback -/

/-- Repoints one resource to the version it had before the batch. -/
def restoreLatestPtr (ptr : ResourceId × Nat) : WriteBatch :=
  if ptr.2 = 0 then { latest := [.delete ptr.1] } else { latest := [.put ptr.1 ptr.2] }

/-- The canonical batches from `upperBound` down to the one after `target`. -/
def rollbackRange (isCanonical : Nat → Bool) (target upperBound : Nat) : List Nat :=
  (List.range' (target + 1) (upperBound - target)).reverse.filter isCanonical

/-- The pointers of `indices`, walked in that order over the columns of `s`. -/
def StateStore.walked (s : StateStore) (indices : List Nat) : WriteBatch :=
  WriteBatch.forEach indices fun index => WriteBatch.forEach (s.iterBatch index) restoreLatestPtr

def rollbackWrites (s : StateStore) (isCanonical : Nat → Bool) (target upperBound : Nat) :
    WriteBatch :=
  s.walked (rollbackRange isCanonical target upperBound)

/-! ### Pruning -/

/-- An orphaned batch loses its own version, a canonical one its predecessor; both
lose the pointer. -/
def prunePtr (isCanonical : Bool) (index : Nat) (ptr : ResourceId × Nat) : WriteBatch :=
  (if !isCanonical then { versions := [.delete (toLex (index, ptr.1))] }
    else if ptr.2 ≠ 0 then { versions := [.delete (toLex (ptr.2, ptr.1))] }
    else {}) ++ { rollback := [.delete (toLex (index, ptr.1))] }

def pruneWrites (s : StateStore) (isCanonical : Nat → Bool) (lowerBound upperBound : Nat) :
    WriteBatch :=
  WriteBatch.forEach (List.range' lowerBound (upperBound + 1 - lowerBound)) fun index =>
    WriteBatch.forEach (s.iterBatch index) (prunePtr (isCanonical index) index) ++
      { metadata := [.delete index] }

end Vprogs.Scheduler
