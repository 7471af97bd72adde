import Vprogs.Scheduler.ChainSteps

/-!
Runs of the scheduler. A pruning pass over a block in flight deletes the version
the latest pointer still names; so, later, do a rollback to a block in flight and
batches restored behind one. In a run without these the latest pointers never
dangle.
-/
namespace Vprogs.Scheduler

open Abi Smt
open Runs (run Along)

namespace System

variable {D : Type} [DecidableEq D] (B : Blocks) (H : Hasher D) (hash : Bytes → D)
  (cfg : Config)

omit [DecidableEq D] in
/-- What a step must not cut off. A block does not return behind the bucket of the
highest id, and a batch is restored only when nothing is in flight. A rollback keeps no
block in flight. A pass commits only when its range holds no block in flight and its
snapshot still answers as the chain does. -/
def Settled (s : System D) : Event → Prop
  | .append id => Bucket.locate s.chain.seen ≤ Bucket.locate id ∧
      (id ≤ s.chain.seen → cfg.supportsRestore = true → s.store.hasMetadata id = true → s.inFlight = [])
  | .rollback target => ∀ j ∈ s.inFlight, target < j
  | .prune =>
    match s.pass with
    | none => True
    | some p => (∀ j ∈ s.inFlight, ¬ (p.lower ≤ j ∧ j ≤ p.upper)) ∧
        ∀ m ∈ List.range' p.lower (p.upper + 1 - p.lower),
          p.isCanonical s.oracle m = s.chain.ids.contains m
  | _ => True

instance (s : System D) (e : Event) : Decidable (Settled cfg s e) := by
  cases e with
  | prune =>
    unfold Settled
    dsimp only
    cases s.pass <;> infer_instance
  | _ => unfold Settled; infer_instance

variable {B H hash cfg} {s s' : System D}

omit [DecidableEq D] in
theorem Invariant.settled_pass (h : s.Invariant B) (hsettled : Settled cfg s .prune)
    {p : Pass} (hp : s.pass = some p) :
    (∀ j y, s.batches j = some y → y.committed = false → ¬ (p.lower ≤ j ∧ j ≤ p.upper)) ∧
      ∀ m, p.lower ≤ m → m ≤ p.upper → (p.isCanonical s.oracle m = true ↔ m ∈ s.chain.ids) := by
  rw [Settled, hp] at hsettled
  refine ⟨fun j y hy hopen => hsettled.1 j (h.mem_inFlight hy hopen), fun m hlower hupper => ?_⟩
  rw [hsettled.2 m (StateStore.mem_pruneRange.mpr ⟨hlower, hupper⟩), List.contains_iff_mem]

theorem step_inv {e : Event} (h : s.Invariant B) (hsettled : Settled cfg s e)
    (hstep : s.step B H hash cfg e = some s') : s'.Invariant B := by
  match e with
  | .append id =>
    refine append_inv h hsettled.1 (fun hseen hsupports hmetadata j y hy => ?_) hstep
    by_contra hne
    have hmem := h.mem_inFlight hy (by simpa using hne)
    rw [hsettled.2 hseen hsupports hmetadata] at hmem
    cases hmem
  | .read id r => exact read_inv h hstep
  | .execute id r => exact execute_inv h hstep
  | .restore id r => exact restore_inv h hstep
  | .write id r => exact write_inv h hstep
  | .commit id => exact commit_inv h hstep
  | .evict r => exact evict_inv h hstep
  | .rollback target =>
    exact rollback_inv h (fun j y hy hopen => hsettled j (h.mem_inFlight hy hopen)) hstep
  | .finalize below => exact finalize_inv h hstep
  | .claim ceiling => exact claim_inv h hstep
  | .prune =>
    exact prune_inv h (fun p hp => (h.settled_pass hsettled hp).1)
      (fun p hp => (h.settled_pass hsettled hp).2) hstep

theorem run_inv {events : List Event} (h : s.Invariant B)
    (hsettled : Along (step B H hash cfg) (Settled cfg) s events)
    (hrun : run (step B H hash cfg) s events = some s') : s'.Invariant B :=
  Runs.invariant (fun h hsettled hstep => step_inv h hsettled hstep) h hsettled hrun

namespace Sample

def resource : ResourceId := Arr.fill 7

/-- Block `b` writes its own number. -/
def body (b : Nat) : Body where
  resources := [resource]
  distinct := List.nodup_singleton _
  needs _ := []
  run _ _ := some [UInt8.ofNat b]
  run_congr _ := rfl

theorem line_parent_lt {b : Nat} (hb : 0 < b) : b - 1 < b := Nat.pred_lt_of_lt hb

theorem fork_parent_lt {b : Nat} (hb : 0 < b) : (if b = 3 then 1 else b - 1) < b := by
  split <;> omega

/-- Blocks in a line. -/
def line : Blocks where
  parent b := b - 1
  body := body
  parent_lt := @line_parent_lt

/-- Blocks 2 and 3 are both children of 1. -/
def fork : Blocks where
  parent b := if b = 3 then 1 else b - 1
  body := body
  parent_lt := @fork_parent_lt

/-- A batch up to its diffs. -/
def executed (b : Nat) : List Event :=
  [.append b, .read b resource, .execute b resource, .write b resource]

/-- Block 2 is finalized and pruned before it commits. -/
def prunedInFlight : List Event :=
  executed 1 ++ [.commit 1] ++ executed 2 ++ [.append 3, .finalize 3, .claim 10, .prune]

/-- Block 3 replaces block 2; both have committed when the pass runs. -/
def prunedOrphan : List Event :=
  executed 1 ++ [.commit 1] ++ executed 2 ++ [.commit 2, .rollback 1] ++ executed 3 ++
    [.commit 3, .finalize 3, .claim 10, .prune]

end Sample

end System

end Vprogs.Scheduler
