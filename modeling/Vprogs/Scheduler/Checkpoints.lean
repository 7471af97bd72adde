import Vprogs.Scheduler.Pipeline

/-!
What a rollback leaves. The latest pointers end up at its target once the batches up to
it have committed, and the checkpoint of the last commit is the same in memory and on
disk, unless the rollback cancels the very next commit between its flush and its
callback.
-/
namespace Vprogs.Scheduler

open Abi Smt
open Runs (run Along)

namespace Pipeline

variable {D : Type} [DecidableEq D] {B : Blocks} {H : Hasher D} {hash : Bytes → D}
  {cfg : Config} {s s' : Pipeline D}

/-- The two checkpoints against the commits on disk. A canceled commit is corrected by
the rollback that cancels it, if that goes back behind the checkpoint in memory. -/
structure Recorded (s : Pipeline D) : Prop where
  stored : s.storedCommitted = s.system.lastCommitted
  flushed : ∀ id ∈ s.flushed, s.system.lastCommitted = id ∧ s.lastCommitted < id ∧
    ∀ t ∈ s.rolling, t < id → t < s.lastCommitted
  done : s.flushed = none → s.lastCommitted = s.system.lastCommitted ∨
    ∃ t ∈ s.rolling, t < s.lastCommitted ∧ s.lastCommitted ≤ s.system.lastCommitted

omit [DecidableEq D] in
theorem recorded_init : Recorded ({} : Pipeline D) :=
  ⟨rfl, fun _ h => (by cases h), fun _ => .inl rfl⟩

theorem Recorded.work (h : s.Recorded) (hc : s.Consistent B) {e : Scheduler.Event}
    (hcareful : s.Careful B (.work e)) (hstep : s.work B H hash cfg e = some s') :
    s'.Recorded := by
  have hlast := (hc.work hcareful hstep).2
  unfold Pipeline.work at hstep
  split at hstep
  · have ⟨system, _, heq⟩ := Option.map_eq_some_iff.mp hstep
    cases heq
    change system.lastCommitted = s.system.lastCommitted at hlast
    refine ⟨?_, ?_, ?_⟩
    · exact h.stored.trans hlast.symm
    · change ∀ id ∈ s.flushed, system.lastCommitted = id ∧ _
      rw [hlast]
      exact h.flushed
    · change s.flushed = none → s.lastCommitted = system.lastCommitted ∨
        ∃ t ∈ s.rolling, t < s.lastCommitted ∧ s.lastCommitted ≤ system.lastCommitted
      rw [hlast]
      exact h.done
  · cases hstep

theorem Recorded.flush (h : s.Recorded) (hc : s.Consistent B) {id : Nat}
    (hstep : s.flush B H hash cfg id = some s') : s'.Recorded := by
  have ⟨_, hflushed, hbelow, hlt, _, system, hlast, heq⟩ := hc.flush hstep
  subst heq
  have hmemory : s.lastCommitted = s.system.lastCommitted := by
    refine (h.done hflushed).resolve_right fun ⟨t, ht, htm, hms⟩ => ?_
    have := hbelow t ht
    omega
  refine ⟨hlast.symm, fun id' hid' => ?_, fun hfalse => by cases hfalse⟩
  cases hid'
  refine ⟨hlast, ?_, fun t ht hti => ?_⟩
  · change s.lastCommitted < id
    omega
  · have := hbelow t ht
    omega

omit [DecidableEq D] in
theorem Recorded.commitDone (h : s.Recorded) (hstep : s.commitDone = some s') : s'.Recorded := by
  have ⟨id, hid, heq⟩ := Option.map_eq_some_iff.mp hstep
  have ⟨hlast, hlt, hrolling⟩ := h.flushed id hid
  cases heq
  refine ⟨h.stored, fun _ hfalse => (by cases hfalse), fun _ => ?_⟩
  change (if s.canceled id then s.lastCommitted else id) = s.system.lastCommitted ∨
    ∃ t ∈ s.rolling, t < (if s.canceled id then s.lastCommitted else id) ∧
      (if s.canceled id then s.lastCommitted else id) ≤ s.system.lastCommitted
  split
  · next hcanceled =>
    have ⟨t, ht, hti⟩ := exists_of_any hcanceled
    refine .inr ⟨t, ht, hrolling t ht (of_decide_eq_true hti), ?_⟩
    omega
  · exact .inl hlast.symm

omit [DecidableEq D] in
theorem Recorded.cancel (h : s.Recorded) {target : Nat} (hattended : s.Attended (.cancel target))
    (hstep : s.cancel target = some s') : s'.Recorded := by
  unfold Pipeline.cancel at hstep
  split at hstep
  · next hguard =>
    have hidle := Option.isNone_iff_eq_none.mp hguard.1
    cases hstep
    refine ⟨h.stored, fun id hid => ?_, fun hflushed => .inl ?_⟩
    · have ⟨hlast, hlt, _⟩ := h.flushed id hid
      refine ⟨hlast, hlt, fun t ht hti => ?_⟩
      cases ht
      exact hattended id hid hti
    · refine (h.done hflushed).resolve_right fun ⟨t, ht, _⟩ => ?_
      rw [hidle] at ht
      cases ht
  · cases hstep

omit [DecidableEq D] in
theorem Recorded.executeRollback (h : s.Recorded) (hc : s.Consistent B)
    (hstep : s.executeRollback cfg = some s') : s'.Recorded := by
  have ⟨_, t, system, hrolling, hflushed, hlast, heq⟩ := hc.executeRollback hstep
  subst heq
  have hstored := h.stored
  have hcorrected : (if t < s.lastCommitted then t else s.lastCommitted) = system.lastCommitted ∧
      (if t < s.lastCommitted then t else s.storedCommitted) = system.lastCommitted := by
    rw [hlast]
    match h.done hflushed with
    | .inl hmemory =>
      split <;> omega
    | .inr ⟨t', ht', htm, hms⟩ =>
      cases hrolling.symm.trans ht'
      rw [if_pos htm, if_pos htm]
      omega
  simp only [decide_eq_true_eq]
  refine ⟨hcorrected.2, fun id hid => ?_, fun _ => .inl hcorrected.1⟩
  change id ∈ s.flushed at hid
  rw [hflushed] at hid
  cases hid

theorem step_recorded (h : s.Recorded) (hc : s.Consistent B) {e : Event} (hcareful : s.Careful B e)
    (hattended : s.Attended e) (hstep : s.step B H hash cfg e = some s') : s'.Recorded := by
  match e with
  | .work e => exact h.work hc hcareful hstep
  | .flush id => exact h.flush hc hstep
  | .commitDone => exact h.commitDone hstep
  | .cancel target => exact h.cancel hattended hstep
  | .executeRollback => exact h.executeRollback hc hstep

theorem run_recorded {events : List Event} (h : s.Recorded) (hc : s.Consistent B)
    (hguarded : Along (step B H hash cfg) (fun s e => s.Careful B e ∧ s.Attended e) s events)
    (hrun : run (step B H hash cfg) s events = some s') : s'.Recorded ∧ s'.Consistent B :=
  Runs.invariant (I := fun s => s.Recorded ∧ s.Consistent B) (fun h hguarded hstep =>
    ⟨step_recorded h.1 h.2 hguarded.1 hguarded.2 hstep, step_consistent h.2 hguarded.1 hstep⟩) ⟨h, hc⟩ hguarded hrun

namespace Sample

open System.Sample

/-- The steps of a batch up to its diffs. -/
def executed (b : Nat) : List Event := (System.Sample.executed b).map .work

/-- A rollback that nothing comes between. -/
def rolledBack (target : Nat) : List Event := [.cancel target, .executeRollback]

/-- Block 2 is canceled between its flush and its callback. -/
def canceledCallback : List Event :=
  executed 1 ++ [.flush 1, .commitDone] ++ executed 2 ++ [.flush 2, .cancel 1, .commitDone, .executeRollback]

/-- Block 1 is in flight when the chain is rolled back to it, and block 3 reads behind it. -/
def readBehind : List Event :=
  executed 1 ++ [.work (.append 2)] ++ rolledBack 1 ++
    [.work (.append 3), .work (.read 3 resource), .work (.execute 3 resource), .flush 1, .commitDone,
      .work (.write 3 resource)] ++ rolledBack 1

/-- Blocks 1 and 2 are in flight, with their diffs on disk, when the chain is rolled back
to block 1. -/
def keptInFlight : List Event :=
  executed 1 ++ executed 2 ++ rolledBack 1 ++ [.flush 1, .commitDone]

end Sample

end Pipeline

end Vprogs.Scheduler
