import Vprogs.Aggregate.Upstream

/-!
The aggregate prover's worker: it drains its inbox, re-forms the retained suffix that a
settlement left behind, and forms bundles from the ready prefix of its queue. A step is
one access of a cell that the upstream threads write; what happens between two of them
is one step. While a bundle is proved the worker waits, and the other threads go on.
-/
namespace Vprogs.Aggregate

/-- `bundle_size`, and whether a settlement watch is wired. -/
structure Config where
  start : Nat
  fin : Nat
  watched : Bool
  deriving DecidableEq, Repr

/-- A bundle that was formed, and how many commands had been drained by then. -/
structure Formed where
  fromQueue : Bool
  drained : Nat
  batches : List ScheduledBatch
  deriving DecidableEq, Repr

inductive Phase where
  /-- `inbox.pop()`. -/
  | draining
  /-- The check of the settlement watch. -/
  | settling
  | reproving (suffix : List ScheduledBatch)
  /-- `try_prove_one_bundle`, from its first line. -/
  | selecting
  /-- `front.wait_artifact_published()`. -/
  | waiting (front : ScheduledBatch)
  /-- `front.canceled()`. -/
  | checking (front : ScheduledBatch)
  | evicting
  /-- `queued[take].artifact_published()`. -/
  | extending (take : Nat)
  /-- `queued[take].canceled()`. -/
  | confirming (take : Nat)
  | forming (take : Nat)
  | proving (bundle : List ScheduledBatch)
  /-- `artifact()` found no receipt. -/
  | panicked
  | stopped
  deriving DecidableEq, Repr

structure Worker where
  queued : List ScheduledBatch
  retained : List ScheduledBatch
  lastReformedFrom : Option Nat
  /-- How many commands of the inbox have been popped. -/
  drained : Nat
  /-- The settlement watch: the newest `block_prove_to`, and the changed flag. -/
  latest : Option Nat
  changed : Bool
  phase : Phase
  /-- Every bundle formed so far. -/
  formed : List Formed
  deriving DecidableEq, Repr

/-- `rposition` of the boundary, plus one. -/
def settledPrefix : List Nat → Nat → Option Nat
  | [], _ => none
  | block :: blocks, boundary =>
    match settledPrefix blocks boundary with
    | some n => some (n + 1)
    | none => if block = boundary then some 1 else none

namespace Worker

def new : Worker := ⟨[], [], none, 0, none, false, .draining, []⟩

variable (c : Config) (u : Upstream) (w : Worker)

/-- The collection of receipts at the start of `prove_bundle`, and the phase after it. -/
def proveBundle (fromQueue : Bool) (bundle : List ScheduledBatch) (phase : Phase) : Worker :=
  { w with
    formed := w.formed ++ [⟨fromQueue, w.drained, bundle⟩]
    phase := if bundle.all (fun b => b.empty || u.artifact b) then phase else .panicked }

def applyRollback (target : Nat) : Worker :=
  { w with
    queued := w.queued.filter (·.index ≤ target)
    retained := w.retained.filter (·.index ≤ target)
    lastReformedFrom := none }

/-- Up to the proof of the suffix. -/
def reaggregateSuperseded (latest : Option Nat) : Worker :=
  match latest with
  | none => { w with phase := .selecting }
  | some boundary =>
    match settledPrefix (w.retained.map (·.block)) boundary with
    | none => { w with phase := .selecting }
    | some drain =>
      let w := { w with retained := w.retained.drop drain }
      match w.retained.take c.fin with
      | [] => { w with lastReformedFrom := none, phase := .selecting }
      | first :: rest =>
        if w.lastReformedFrom = some first.index then { w with phase := .selecting }
        else w.proveBundle u false (first :: rest) (.reproving (first :: rest))

/-- The worker's next step; `none` while it waits. -/
def advance : Option Worker :=
  match w.phase with
  | .draining =>
    match u.log[w.drained]? with
    | some (.batch b) => some { w with drained := w.drained + 1, queued := w.queued ++ [b] }
    | some (.rollback target) => some { w.applyRollback target with drained := w.drained + 1 }
    | none => some { w with phase := .settling }
  | .settling =>
    if w.changed then some ({ w with changed := false }.reaggregateSuperseded c u w.latest)
    else some { w with phase := .selecting }
  | .reproving suffix => some { w with
      lastReformedFrom := suffix.head?.map (·.index), phase := .selecting }
  | .selecting =>
    match w.queued with
    | [] => some { w with phase := .draining }
    | front :: _ => some { w with phase := .waiting front }
  | .waiting front =>
    if u.opened front ∨ u.canceled front then some { w with phase := .checking front } else none
  | .checking front =>
    if u.canceled front then some { w with phase := .evicting }
    else some { w with phase := .extending 1 }
  | .evicting =>
    match w.queued with
    | [] => some { w with phase := .draining }
    | front :: rest =>
      if u.canceled front then some { w with queued := rest }
      else some { w with phase := .draining }
  | .extending take =>
    match w.queued[take]? with
    | some b =>
      if take < c.fin ∧ u.opened b then some { w with phase := .confirming take }
      else some { w with phase := .forming take }
    | none => some { w with phase := .forming take }
  | .confirming take =>
    match w.queued[take]? with
    | some b =>
      if u.canceled b then some { w with phase := .forming take }
      else some { w with phase := .extending (take + 1) }
    | none => none
  | .forming take =>
    if take < c.start then some { w with phase := .draining }
    else some ({ w with queued := w.queued.drop take }.proveBundle u true (w.queued.take take)
      (.proving (w.queued.take take)))
  | .proving bundle => some { w with
      retained := if c.watched then w.retained ++ bundle else w.retained
      phase := .draining }
  | .panicked | .stopped => none

end Worker

/-- The worker and everything upstream of it. -/
structure Prover where
  upstream : Upstream
  worker : Worker

inductive Event where
  | upstream (event : UpstreamEvent)
  /-- The bridge publishes a settlement, or that there is none. -/
  | settlement (latest : Option Nat)
  | advance
  /-- The worker sees the shutdown latch, at any point. -/
  | shutdown
  deriving DecidableEq, Repr

namespace Prover

def new (root tip : Nat) : Prover := ⟨.new root tip, .new⟩

def step (c : Config) (s : Prover) : Event → Option Prover
  | .upstream event => (s.upstream.step event).map fun u => { s with upstream := u }
  | .settlement latest =>
    if c.watched then some { s with worker := { s.worker with latest := latest, changed := true } }
    else none
  | .advance => (s.worker.advance c s.upstream).map fun w => { s with worker := w }
  | .shutdown =>
    match s.worker.phase with
    | .panicked | .stopped => none
    | _ => some { s with worker := { s.worker with phase := .stopped } }

end Prover

end Vprogs.Aggregate
