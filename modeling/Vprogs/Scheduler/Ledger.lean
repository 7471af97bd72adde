import Vprogs.Canonical.Manager
import Vprogs.Storage.Column
import Mathlib.Data.List.DropRight

/-!
The scheduler's books: the checkpoints of scheduled and committed batches, in memory
and on disk. Three threads keep them. The scheduler thread schedules, finalizes and
rolls back; the write worker commits batches in the order they were scheduled; the
pruning thread deletes metadata of finalized batches. Each event is one step of one
thread between two points where another can be seen.
-/
namespace Vprogs.Scheduler

open Canonical

structure Checkpoint (M : Type) where
  index : Nat
  metadata : M
  deriving DecidableEq, Inhabited

inductive SchedulerError where
  | pruningConflict
  deriving DecidableEq

/-- A scheduled batch. -/
structure Scheduled (M : Type) where
  checkpoint : Checkpoint M
  restored : Bool
  canceled : Bool
  deriving DecidableEq

def Scheduled.index {M : Type} (x : Scheduled M) : Nat := x.checkpoint.index

/-- Batches above the target of a rollback are canceled. -/
def Scheduled.cancel {M : Type} (target : Nat) (x : Scheduled M) : Scheduled M :=
  { x with canceled := x.canceled || decide (target < x.index) }

/-- Where the pruning thread is in its pass. The cursor is swapped before the ceiling
is read again, and the root advances in memory before anything is deleted. -/
inductive Pruner (M : Type) where
  | idle
  | ranged (lower upper : Nat)
  | announced (lower upper prev : Nat)
  | pruning (lower upper : Nat)
  | deleting (lower upper : Nat) (newRoot : Checkpoint M)
  deriving DecidableEq

/-- Where the scheduler thread is in `rollback_to`: the ceiling is set, the cursor has
been read, the target looked up, the batches above it canceled, the rollback executed. -/
inductive Phase (M : Type) where
  | idle
  | paused (target : Nat)
  | conflicted
  | cleared (target : Nat)
  | found (target : Checkpoint M)
  | rolling (target : Checkpoint M)
  | executed (target : Checkpoint M)
  deriving DecidableEq

structure Books (M : Type) [Inhabited M] where
  /-- Checkpoints that have not been seen committed, in index order. -/
  pendingBatches : List (Checkpoint M) := []
  lastProcessed : Checkpoint M := default
  lastCommitted : Checkpoint M := default
  root : Checkpoint M := default
  /-- Metadata on disk. -/
  metadata : Column Nat M := {}
  storedCommitted : Checkpoint M := default
  storedRoot : Checkpoint M := default
  /-- Ids under which versions or nodes have been written. -/
  written : List Nat := []
  /-- Batches on their way to the write worker, in the order they were scheduled. -/
  queue : List (Scheduled M) := []
  /-- A batch whose commit is on disk and whose callback has not run. -/
  flushed : Option (Scheduled M) := none
  threshold : Nat := 0
  cursor : Nat := 0
  /-- Bound on pruning during a rollback. -/
  ceiling : Option Nat := none
  pruner : Pruner M := .idle
  phase : Phase M := .idle
  /-- What the last `rollback_to` returned. -/
  returned : Option (Except SchedulerError (Checkpoint M)) := none
  /-- The ids of the branch the schedule calls have built; not in the source. -/
  line : List Nat := []

namespace Books

variable {M : Type} [Inhabited M] (b : Books M)

/-- The metadata of a batch, the default if there is none. -/
def storedMetadata (index : Nat) : M := (b.metadata.get index).getD default

/-! ### The scheduler thread -/

def drainCommitted : Books M :=
  { b with
    pendingBatches := b.pendingBatches.dropWhile fun cp => decide (cp.index ≤ b.lastCommitted.index) }

/-- Checkpoint, queue entry and root of a batch that got its id. -/
def nextCheckpoint (supportsRestore : Bool) (metadata : M) (outcome : AppendOutcome) : Books M :=
  let b := b.drainCommitted
  let checkpoint : Checkpoint M := ⟨outcome.id, metadata⟩
  { b with
    lastProcessed := checkpoint
    pendingBatches := b.pendingBatches ++ [checkpoint]
    root := if b.root.index = 0 then checkpoint else b.root
    queue := b.queue ++
      [⟨checkpoint, !outcome.isNew && supportsRestore && (b.metadata.get outcome.id).isSome, false⟩]
    line := b.line ++ [outcome.id] }

/-- Searches the pending queue, which ascends. -/
def searchPending (index : Nat) : List (Checkpoint M) → Option (Checkpoint M)
  | [] => none
  | cp :: rest =>
    if cp.index = index then some cp
    else if index < cp.index then none
    else searchPending index rest

/-- The pending queue first, then the disk. -/
def lookupCheckpoint (index : Nat) : Checkpoint M :=
  if index = 0 then default
  else (searchPending index b.pendingBatches).getD ⟨index, b.storedMetadata index⟩

/-- The call of `rollback_to`, up to the ceiling that stops pruning. -/
def rollbackTo (target : Nat) : Option (Books M) :=
  match b.phase with
  | .idle =>
    if target < b.lastProcessed.index then
      some { b with ceiling := some target, phase := .paused target }
    else some { b with returned := some (.ok b.lastProcessed) }
  | _ => none

/-- `pause` reads the cursor: a pass beyond the target is a conflict. -/
def readCursor : Option (Books M) :=
  match b.phase with
  | .paused target =>
    some { b with phase := if b.cursor ≤ target then .cleared target else .conflicted }
  | _ => none

/-- After a conflict `pause` takes its ceiling back. -/
def resetCeiling : Option (Books M) :=
  match b.phase with
  | .conflicted =>
    some { b with ceiling := none, phase := .idle, returned := some (.error .pruningConflict) }
  | _ => none

def lookup : Option (Books M) :=
  match b.phase with
  | .cleared target => some { b with phase := .found (b.lookupCheckpoint target) }
  | _ => none

/-- Cancels the batches above the target and takes them off the books. -/
def cancelAndRollback (target : Checkpoint M) : Books M :=
  { b with
    queue := b.queue.map (·.cancel target.index)
    flushed := b.flushed.map (·.cancel target.index)
    lastProcessed := target
    pendingBatches := b.pendingBatches.rdropWhile fun cp => decide (target.index < cp.index)
    phase := .rolling target
    line := b.line.filter fun id => decide (id ≤ target.index) }

/-- The write worker's side of a rollback. -/
def executeRollback : Option (Books M) :=
  match b.phase, b.flushed with
  | .rolling target, none =>
    let targetCommitted := decide (target.index < b.lastCommitted.index)
    let toGenesis := decide (target.index = 0)
    some { b with
      lastCommitted := if targetCommitted then target else b.lastCommitted
      storedCommitted := if targetCommitted then target else b.storedCommitted
      root := if toGenesis then target else b.root
      storedRoot := if toGenesis then target else b.storedRoot
      phase := .executed target }
  | _, _ => none

/-- Pruning resumes and `rollback_to` returns. -/
def unpause : Option (Books M) :=
  match b.phase with
  | .executed target => some { b with ceiling := none, phase := .idle, returned := some (.ok target) }
  | _ => none

/-! ### The write worker -/

/-- A diff of a batch in the queue reaches the disk. -/
def write (index : Nat) : Option (Books M) :=
  if b.queue.any fun x => !x.canceled && x.index == index then
    some { b with written := index :: b.written }
  else none

/-- The next batch of the queue commits, unless it is canceled. -/
def flush : Option (Books M) :=
  match b.queue, b.flushed with
  | x :: rest, none =>
    if x.canceled then some { b with queue := rest }
    else
      some { b with
        queue := rest
        flushed := some x
        metadata := if x.restored then b.metadata else b.metadata.put x.index x.checkpoint.metadata
        written := if x.restored then b.written else x.index :: b.written
        storedCommitted := x.checkpoint
        storedRoot := if x.index = b.root.index then x.checkpoint else b.storedRoot }
  | _, _ => none

def commitDone : Option (Books M) :=
  match b.flushed with
  | some x =>
    some { b with
      flushed := none
      lastCommitted := if x.canceled then b.lastCommitted else x.checkpoint }
  | none => none

/-! ### The pruning thread -/

def range : Option (Books M) :=
  match b.pruner with
  | .idle =>
    let lower := b.root.index
    let upper := (b.ceiling.elim b.threshold fun ceiling => min b.threshold ceiling) - 1
    if lower ≤ upper ∧ 0 < lower then some { b with pruner := .ranged lower upper } else none
  | _ => none

def announce : Option (Books M) :=
  match b.pruner with
  | .ranged lower upper => some { b with cursor := upper, pruner := .announced lower upper b.cursor }
  | _ => none

/-- A ceiling set since aborts the pass. -/
def checkCeiling : Option (Books M) :=
  match b.pruner with
  | .announced lower upper prev =>
    if b.ceiling.any fun ceiling => decide (ceiling ≤ upper) then
      some { b with cursor := prev, pruner := .idle }
    else some { b with pruner := .pruning lower upper }
  | _ => none

def advanceRoot : Option (Books M) :=
  match b.pruner with
  | .pruning lower upper =>
    let newRoot : Checkpoint M := ⟨upper + 1, b.storedMetadata (upper + 1)⟩
    some { b with root := newRoot, pruner := .deleting lower upper newRoot }
  | _ => none

def prune : Option (Books M) :=
  match b.pruner with
  | .deleting lower upper newRoot =>
    some { b with
      metadata := b.metadata.writeAll ((List.range' lower (upper + 1 - lower)).map .delete)
      storedRoot := newRoot
      pruner := .idle }
  | _ => none

/-- Steps that leave the canonical chain alone. -/
inductive Event where
  | rollbackTo (target : Nat)
  | readCursor
  | resetCeiling
  | lookup
  | executeRollback
  | unpause
  | write (index : Nat)
  | flush
  | commitDone
  | range
  | announce
  | checkCeiling
  | advanceRoot
  | prune
  deriving DecidableEq

def step : Event → Option (Books M)
  | .rollbackTo target => b.rollbackTo target
  | .readCursor => b.readCursor
  | .resetCeiling => b.resetCeiling
  | .lookup => b.lookup
  | .executeRollback => b.executeRollback
  | .unpause => b.unpause
  | .write index => b.write index
  | .flush => b.flush
  | .commitDone => b.commitDone
  | .range => b.range
  | .announce => b.announce
  | .checkCeiling => b.checkCeiling
  | .advanceRoot => b.advanceRoot
  | .prune => b.prune

end Books

/-! ### The scheduler -/

structure Ledger (M : Type) [Inhabited M] where
  manager : CanonicalChainManager CanonicalChain M := { chain := .empty }
  books : Books M := {}

namespace Ledger

inductive Event (M : Type) where
  | schedule (metadata : M)
  | finalize (below : Nat)
  | cancel
  | books (e : Books.Event)
  deriving DecidableEq

variable {M : Type} [Inhabited M] [BatchMetadata M] (debug supportsRestore : Bool) (s : Ledger M)

def schedule (metadata : M) : Option (Ledger M) :=
  match s.books.phase with
  | .idle => (s.manager.append (CanonicalChain.oracle debug) metadata).map fun appended =>
    ⟨appended.2, s.books.nextCheckpoint supportsRestore metadata appended.1⟩
  | _ => none

/-- Ids below the root are finalized; the pruning thread follows to the threshold. -/
def finalize (below : Nat) : Option (Ledger M) :=
  match s.books.phase with
  | .idle => some
      ⟨s.manager.finalize (CanonicalChain.oracle debug) s.books.root.index,
        { s.books with threshold := max s.books.threshold below }⟩
  | _ => none

omit [BatchMetadata M] in
/-- What is above the target leaves the books and the chain. -/
def cancel : Option (Ledger M) :=
  match s.books.phase with
  | .found target => (s.manager.rollback (CanonicalChain.oracle debug) target.index).map fun manager =>
    ⟨manager, s.books.cancelAndRollback target⟩
  | _ => none

def step : Event M → Option (Ledger M)
  | .schedule metadata => s.schedule debug supportsRestore metadata
  | .finalize below => s.finalize debug below
  | .cancel => s.cancel debug
  | .books e => (s.books.step e).map ({ s with books := · })

end Ledger

end Vprogs.Scheduler
