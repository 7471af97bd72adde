import Vprogs.Canonical.ChainSet
import Vprogs.Lane.BatchProcessor
import Vprogs.Scheduler.Blocks
import Vprogs.Smt.PrunedForks

/-!
The scheduler as a system of threads. The scheduler thread appends, rolls back and
finalizes; workers read and execute; the write worker persists diffs and commits;
the pruning thread claims a range and prunes it. Each event below is one atomic
step of one of them, and a run is any interleaving.

A rollback is one step: the scheduler thread waits for the write worker, canceled
batches write nothing any more, and what the worker does before it for other
batches can be ordered before it. Diffs reach the store one at a time, in an order
that is at least as free as the write queue's.
-/
namespace Vprogs.Scheduler

open Abi Smt
open Canonical (CanonicalChain)

/-- What the processor supports, and whether debug assertions are on. -/
structure Config where
  supportsRestore : Bool
  debug : Bool

/-- A scheduled batch that is not canceled. `source` is the batch with the previous
access to a resource, if the resource was in memory when the batch was scheduled. -/
structure Batch where
  restored : Bool
  source : ResourceId → Option Nat
  read : ResourceId → Option StateVersion := fun _ => none
  written : ResourceId → Option StateVersion := fun _ => none
  persisted : List ResourceId := []
  committed : Bool := false

/-- A pruning pass between the claim of its range and its commit, with the snapshot of
the oracle it pinned. -/
structure Pass where
  lower : Nat
  upper : Nat
  snapshot : Nat

structure System (D : Type) where
  store : StateStore := {}
  smt : SmtStore D := {}
  /-- The log of ids and the canonical ones, which the oracle below has as bits. -/
  chain : Chain := {}
  oracle : CanonicalChain := .empty
  batches : Nat → Option Batch := fun _ => none
  /-- The batch with the last access, for resources in memory. -/
  resources : ResourceId → Option Nat := fun _ => none
  lastCommitted : Nat := 0
  root : Nat := 0
  threshold : Nat := 0
  cursor : Nat := 0
  pass : Option Pass := none

inductive Event where
  | append (id : Nat)
  | read (id : Nat) (r : ResourceId)
  | execute (id : Nat) (r : ResourceId)
  | restore (id : Nat) (r : ResourceId)
  | write (id : Nat) (r : ResourceId)
  | commit (id : Nat)
  | evict (r : ResourceId)
  | rollback (target : Nat)
  | finalize (below : Nat)
  | claim (ceiling : Nat)
  | prune

/-- The value hash of a resource's data. -/
def valueHash {D : Type} (H : Hasher D) (hash : Bytes → D) (data : Bytes) : D :=
  if data.isEmpty then H.emptyHash else hash data

/-- The commitment of a diff to its written data. -/
def StateDiff.commitment {D : Type} (H : Hasher D) (hash : Bytes → D) (d : StateDiff) :
    Commitment D :=
  ⟨Lane.BatchProcessor.keyOfId d.resourceId, valueHash H hash d.writtenState.data⟩

namespace Batch

/-- The diffs of the batch once both states of each are known. -/
def diffs (x : Batch) (resources : List ResourceId) : Option (List StateDiff) :=
  resources.mapM fun r => do
    let readState ← x.read r
    let writtenState ← x.written r
    pure ⟨r, readState, writtenState⟩

theorem diffs_spec {x : Batch} {resources : List ResourceId} {diffs : List StateDiff}
    (h : x.diffs resources = some diffs) :
    diffs.map (·.resourceId) = resources ∧
      ∀ d ∈ diffs, x.read d.resourceId = some d.readState ∧
        x.written d.resourceId = some d.writtenState := by
  induction resources generalizing diffs with
  | nil =>
    cases h
    exact ⟨rfl, fun _ hd => by cases hd⟩
  | cons r rest ih =>
    rw [Batch.diffs, List.mapM_cons] at h
    have ⟨d, hd, h⟩ := Option.bind_eq_some_iff.mp h
    have ⟨ds, hds, heq⟩ := Option.bind_eq_some_iff.mp h
    have ⟨readState, hread, hd⟩ := Option.bind_eq_some_iff.mp hd
    have ⟨writtenState, hwritten, hd⟩ := Option.bind_eq_some_iff.mp hd
    have ⟨hmap, hall⟩ := ih hds
    cases heq
    cases hd
    refine ⟨congrArg (r :: ·) hmap, fun d hd => ?_⟩
    match List.mem_cons.mp hd with
    | .inl heq => exact heq ▸ ⟨hread, hwritten⟩
    | .inr hd => exact hall d hd

/-- The data of the resources read so far. -/
def data (x : Batch) : ResourceId → Bytes := fun r => ((x.read r).map (·.data)).getD []

def setRead (x : Batch) (r : ResourceId) (st : StateVersion) : Batch :=
  { x with read := Function.update x.read r (some st) }

def setWritten (x : Batch) (r : ResourceId) (st : StateVersion) : Batch :=
  { x with written := Function.update x.written r (some st) }

theorem read_setRead (x : Batch) (r r' : ResourceId) (st : StateVersion) :
    (x.setRead r st).read r' = if r' = r then some st else x.read r' := by
  simp only [setRead, Function.update_apply]

theorem written_setWritten (x : Batch) (r r' : ResourceId) (st : StateVersion) :
    (x.setWritten r st).written r' = if r' = r then some st else x.written r' := by
  simp only [setWritten, Function.update_apply]

end Batch

namespace Pass

/-- What the pinned snapshot answers now. -/
def isCanonical (p : Pass) (c : CanonicalChain) : Nat → Bool := c.isCanonical (c.snapshots.read p.snapshot)

end Pass

namespace System

variable {D : Type} (B : Blocks) (H : Hasher D) (hash : Bytes → D) (cfg : Config)
variable (s : System D)

def setBatch (id : Nat) (x : Batch) : System D :=
  { s with batches := Function.update s.batches id (some x) }

/-- What the current snapshot of the oracle answers. -/
def isCanonical : Nat → Bool := s.oracle.isCanonical s.oracle.snapshot

def isCommitted (id : Nat) : Bool := (s.batches id).any (·.committed)

/-- A block is appended to its parent. A returning batch is restored if the
processor supports it and the batch committed before. -/
def append (id : Nat) : Option (System D) := do
  guard (B.parent id = s.chain.tip)
  let chain ← s.chain.append id
  let oracle ← s.oracle.append cfg.debug id
  let restored := decide (id ≤ s.chain.seen) && cfg.supportsRestore && s.store.hasMetadata id
  pure { s with
    chain := chain
    oracle := oracle
    batches := Function.update s.batches id (some { restored := restored, source := s.resources })
    resources := fun r => if r ∈ (B.body id).resources then some id else s.resources r
    root := if s.root = 0 then id else s.root }

/-- The state of a resource a batch starts from: handed over by the previous access,
or the latest in the store. -/
def available (x : Batch) (r : ResourceId) : Option StateVersion :=
  match x.source r with
  | some p => (s.batches p).bind (·.written r)
  | none => some (.fromLatestData s.store r)

def read (id : Nat) (r : ResourceId) : Option (System D) := do
  let x ← s.batches id
  guard (x.restored = false ∧ x.read r = none ∧ r ∈ (B.body id).resources)
  let st ← s.available x r
  pure (s.setBatch id (x.setRead r st))

/-- The last transaction that accesses the resource has run. -/
def execute (id : Nat) (r : ResourceId) : Option (System D) := do
  let x ← s.batches id
  guard (x.restored = false ∧ x.written r = none ∧
    ((B.body id).needs r).all fun y => (x.read y).isSome)
  let readState ← x.read r
  let writtenState :=
    match (B.body id).run x.data r with
    | none => readState
    | some data => ⟨id, data⟩
  pure (s.setBatch id (x.setWritten r writtenState))

/-- A rollback pointer tells a written resource from one only read. -/
def restore (id : Nat) (r : ResourceId) : Option (System D) := do
  let x ← s.batches id
  guard (x.restored = true ∧ x.written r = none ∧ r ∈ (B.body id).resources)
  let (readState, writtenState) :=
    match s.store.rollbackPtr id r with
    | some old => (StateVersion.atVersion s.store old r, StateVersion.atVersion s.store id r)
    | none => (StateVersion.fromLatestData s.store r, StateVersion.fromLatestData s.store r)
  pure (s.setBatch id ((x.setRead r readState).setWritten r writtenState))

/-- Whether the diff of the previous access is in the write queue or beyond. -/
def submitted (x : Batch) (r : ResourceId) : Bool :=
  match x.source r with
  | some p => (s.batches p).any fun y => y.committed || y.restored || y.persisted.contains r
  | none => true

def write (id : Nat) (r : ResourceId) : Option (System D) := do
  let x ← s.batches id
  guard (x.restored = false ∧ x.committed = false ∧ s.submitted x r = true)
  let readState ← x.read r
  let writtenState ← x.written r
  let d : StateDiff := ⟨r, readState, writtenState⟩
  pure { s with
    store := s.store.commit (d.write id)
    batches := Function.update s.batches id (some { x with persisted := r :: x.persisted }) }

/-- The SMT update of a fresh batch. -/
def updateSmt [DecidableEq D] (x : Batch) (diffs : List StateDiff) (id : Nat) : Option (SmtStore D) :=
  if x.restored then some s.smt
  else
    match s.smt.update H s.isCanonical
      ((diffs.filter StateDiff.dataUpdated).map (StateDiff.commitment H hash)) id with
    | .ok (_, smt) => some smt
    | .error _ => none

/-- Batches commit in the order they were scheduled, after their diffs. -/
def commit [DecidableEq D] (id : Nat) : Option (System D) := do
  let x ← s.batches id
  guard (x.committed = false ∧ (s.chain.ids.all fun c => decide (id ≤ c) || s.isCommitted c) ∧
    (x.restored || (B.body id).resources.all x.persisted.contains))
  let diffs ← x.diffs (B.body id).resources
  let smt ← s.updateSmt H hash x diffs id
  pure { s with
    store := s.store.commit (commitWrites diffs id x.restored)
    smt := smt
    batches := Function.update s.batches id (some { x with committed := true })
    lastCommitted := id }

/-- Only a resource whose last access has committed leaves memory. -/
def evict (r : ResourceId) : Option (System D) := do
  let p ← s.resources r
  guard (s.isCommitted p)
  pure { s with resources := Function.update s.resources r none }

def rollback (target : Nat) : Option (System D) := do
  guard (target < s.chain.tip ∧ s.cursor ≤ target ∧ (target = 0 ∨ target ∈ s.chain.ids))
  let oracle ← s.oracle.rollback cfg.debug target
  pure { s with
    store := s.store.commit (rollbackWrites s.store s.isCanonical target s.chain.tip)
    chain := s.chain.rollback target
    oracle := oracle
    batches := fun id => if id ≤ target then s.batches id else none
    resources := fun _ => none
    lastCommitted := min s.lastCommitted target
    root := if target = 0 then 0 else s.root }

def finalize (below : Nat) : Option (System D) := do
  guard (below ∈ s.chain.ids)
  pure { s with
    threshold := max s.threshold below
    chain := s.chain.finalize s.root
    oracle := s.oracle.finalize s.root }

/-- The pruning thread takes the range from the root up to the threshold, or to the
ceiling a rollback has set; the cursor announces it. -/
def claim (ceiling : Nat) : Option (System D) := do
  let upper := min s.threshold ceiling - 1
  guard (s.pass.isNone ∧ 0 < s.root ∧ s.root ≤ upper)
  pure { s with
    cursor := upper
    root := upper + 1
    pass := some { lower := s.root, upper := upper, snapshot := s.oracle.current } }

def prune : Option (System D) := do
  let p ← s.pass
  pure { s with
    store := s.store.commit (pruneWrites s.store (p.isCanonical s.oracle) p.lower p.upper)
    smt := s.smt.pruneRange p.lower p.upper
    pass := none }

/-- One step; `none` if the event cannot happen or its thread panics. -/
def step [DecidableEq D] (s : System D) (e : Event) : Option (System D) :=
  match e with
  | .append id => s.append B cfg id
  | .read id r => s.read B id r
  | .execute id r => s.execute B id r
  | .restore id r => s.restore B id r
  | .write id r => s.write id r
  | .commit id => s.commit B H hash id
  | .evict r => s.evict r
  | .rollback target => s.rollback cfg target
  | .finalize below => s.finalize below
  | .claim ceiling => s.claim ceiling
  | .prune => s.prune

end System

end Vprogs.Scheduler
