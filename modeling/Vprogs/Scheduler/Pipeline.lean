import Vprogs.Scheduler.Pointers

/-!
Rollbacks in the middle of commits. `rollback_to` cancels the batches above its target
and waits until the write worker gets to it; the worker flushes a commit and runs its
callback in two steps, and the cancellation can come between them. The checkpoint of
the last commit is kept in memory and on disk; the callback updates the first, the
flush the second.

A rollback takes effect in the state below when it is executed: the scheduler thread
waits for it, and what canceled batches still read or compute is dropped with them.
-/
namespace Vprogs.Scheduler

open Abi Smt
open Runs (run Along)

structure Pipeline (D : Type) where
  system : System D := {}
  /-- The index of the checkpoint in the shared state. -/
  lastCommitted : Nat := 0
  /-- The index of the checkpoint on disk. -/
  storedCommitted : Nat := 0
  /-- The batch whose commit is on disk and whose callback has not run. -/
  flushed : Option Nat := none
  /-- The target of a rollback on its way to the write worker. -/
  rolling : Option Nat := none
  /-- The target of the last rollback; not in the source. -/
  target : Nat := 0

namespace Pipeline

/-- `work` is a step of the scheduler or of a worker that neither commits nor rolls back. -/
inductive Event where
  | work (e : Scheduler.Event)
  | flush (id : Nat)
  | commitDone
  | cancel (target : Nat)
  | executeRollback

variable {D : Type} [DecidableEq D] (B : Blocks) (H : Hasher D) (hash : Bytes → D)
  (cfg : Config) (s : Pipeline D)

omit [DecidableEq D] in
def canceled (id : Nat) : Bool := s.rolling.any fun target => decide (target < id)

omit [DecidableEq D] in
/-- The chain the write worker sees: the scheduler thread rolls it back when it cancels. -/
def chain : Chain := s.rolling.elim s.system.chain fun target => s.system.chain.rollback target

omit [DecidableEq D] in
def oracle : Canonical.CanonicalChain := s.rolling.elim s.system.oracle fun target =>
  (s.system.oracle.rollback cfg.debug target).getD s.system.oracle

omit [DecidableEq D] in
/-- The scheduler thread waits during a rollback. -/
def allowed : Scheduler.Event → Bool
  | .append _ | .evict _ => s.rolling.isNone
  | .read id _ | .execute id _ | .restore id _ | .write id _ => !s.canceled id
  | _ => false

def work (e : Scheduler.Event) : Option (Pipeline D) :=
  if s.allowed e then (s.system.step B H hash cfg e).map ({ s with system := · }) else none

/-- The next commit reaches the disk, unless its batch is canceled. -/
def flush (id : Nat) : Option (Pipeline D) :=
  if s.flushed.isNone && !s.canceled id then
    (({ s.system with chain := s.chain, oracle := s.oracle cfg } : System D).commit B H hash id).map fun system =>
      { s with
        system := { system with chain := s.system.chain, oracle := s.system.oracle }
        storedCommitted := id
        flushed := some id }
  else none

omit [DecidableEq D] in
def commitDone : Option (Pipeline D) :=
  s.flushed.map fun id =>
    { s with flushed := none, lastCommitted := if s.canceled id then s.lastCommitted else id }

omit [DecidableEq D] in
/-- `rollback_to` up to its command for the write worker. -/
def cancel (target : Nat) : Option (Pipeline D) :=
  if s.rolling.isNone ∧ target < s.system.chain.tip ∧ (target = 0 ∨ target ∈ s.system.chain.ids) then
    some { s with rolling := some target }
  else none

omit [DecidableEq D] in
def executeRollback : Option (Pipeline D) :=
  match s.rolling, s.flushed with
  | some target, none =>
    let targetCommitted := decide (target < s.lastCommitted)
    (s.system.rollback cfg target).map fun system =>
      { s with
        system := system
        lastCommitted := if targetCommitted then target else s.lastCommitted
        storedCommitted := if targetCommitted then target else s.storedCommitted
        rolling := none
        target := target }
  | _, _ => none

def step (s : Pipeline D) : Event → Option (Pipeline D)
  | .work e => s.work B H hash cfg e
  | .flush id => s.flush B H hash cfg id
  | .commitDone => s.commitDone
  | .cancel target => s.cancel target
  | .executeRollback => s.executeRollback cfg

omit [DecidableEq D] in
/-- The disk is clear for what is read from it, and no block returns behind the bucket of
the highest id. -/
def Careful (s : Pipeline D) : Event → Prop
  | .work (.append id) => Bucket.locate s.system.chain.seen ≤ Bucket.locate id
  | .work (.read id r) =>
    (s.system.batches id).all (fun x => (x.source r).isNone) = true → s.system.Clear B s.target id r
  | .work (.restore id r) => s.system.store.rollbackPtr id r = none → s.system.Clear B s.target id r
  | _ => True

omit [DecidableEq D] in
/-- A commit whose callback has not run is not canceled, or the rollback goes back behind
the commit before it. -/
def Attended (s : Pipeline D) : Event → Prop
  | .cancel target => ∀ id ∈ s.flushed, target < id → target < s.lastCommitted
  | _ => True

omit [DecidableEq D] in
instance (s : Pipeline D) : (e : Event) → Decidable (s.Careful B e)
  | .work (.read id r) =>
    inferInstanceAs (Decidable (_ → ∀ j ∈ s.system.inFlight, (j < id → B.updateAt j r = none) ∧
      (j ≤ s.target → s.system.store.rollbackPtr j r = none)))
  | .work (.restore id r) =>
    inferInstanceAs (Decidable (_ → ∀ j ∈ s.system.inFlight, (j < id → B.updateAt j r = none) ∧
      (j ≤ s.target → s.system.store.rollbackPtr j r = none)))
  | .work (.append _) => inferInstanceAs (Decidable (_ ≤ _))
  | .work (.execute _ _) | .work (.write _ _) | .work (.commit _) | .work (.evict _)
  | .work (.rollback _) | .work (.finalize _) | .work (.claim _) | .work .prune | .flush _ | .commitDone
  | .cancel _ | .executeRollback => isTrue trivial

omit [DecidableEq D] in
instance (s : Pipeline D) : (e : Event) → Decidable (s.Attended e)
  | .cancel _ => inferInstanceAs (Decidable (∀ _ ∈ s.flushed, _))
  | .work _ | .flush _ | .commitDone | .executeRollback => isTrue trivial

/-! ### What the batches hold -/

omit [DecidableEq D] in
structure Consistent (B : Blocks) (s : Pipeline D) : Prop where
  system : s.system.Consistent B s.target
  unpruned : s.system.cursor = 0
  reads : ∀ i x r st, s.system.batches i = some x → x.read r = some st →
    st.norm = B.snapshot (B.parent i) r

omit [DecidableEq D] in
theorem consistent_init : Consistent B ({} : Pipeline D) where
  system := System.consistent_init B
  unpruned := rfl
  reads _ _ _ _ h := by cases h

variable {B H hash cfg} {s s' : Pipeline D}

omit [DecidableEq D] in
/-- A batch moves on and has read what the blocks before it left. -/
theorem Consistent.moved (h : s.Consistent B) {i : Nat} {x x' : Batch} {store : StateStore}
    (hx : s.system.batches i = some x)
    (hread : ∀ r st, x'.read r = some st → x.read r = some st ∨ st.norm = B.snapshot (B.parent i) r)
    (hnext : System.Consistent B { s.system with
      store := store, batches := Function.update s.system.batches i (some x') } s.target) :
    Consistent B { s with system := { s.system with
      store := store, batches := Function.update s.system.batches i (some x') } } := by
  refine ⟨hnext, h.unpruned, fun j y r st hy hst => ?_⟩
  dsimp only at hy
  rw [Function.update_apply] at hy
  split at hy
  · next hj =>
    subst hj
    cases hy
    exact (hread r st hst).elim (h.reads j x r st hx) id
  · exact h.reads j y r st hy hst

theorem Consistent.work (h : s.Consistent B) {e : Scheduler.Event} (hcareful : s.Careful B (.work e))
    (hstep : s.work B H hash cfg e = some s') :
    s'.Consistent B ∧ s'.system.lastCommitted = s.system.lastCommitted := by
  unfold Pipeline.work at hstep
  split at hstep
  · next hallowed =>
    have ⟨system, hsystem, heq⟩ := Option.map_eq_some_iff.mp hstep
    cases heq
    match e with
    | .append id =>
      have hnext := h.system.append hcareful hsystem
      obtain ⟨_, _, _, _, _, heq⟩ := System.append_eq hsystem
      subst heq
      refine ⟨⟨hnext, h.unpruned, fun j y r st hy hst => ?_⟩, rfl⟩
      dsimp only at hy
      rw [Function.update_apply] at hy
      split at hy
      · cases hy
        cases hst
      · exact h.reads j y r st hy hst
    | .read id r =>
      have ⟨hnext, x, st, hx, heq⟩ := h.system.read (fun x hx hsource => hcareful (by
        rw [hx, Option.all_some, hsource]
        rfl)) hsystem
      subst heq
      have hres : x.restored = false := by
        have ⟨y, hy, hguard⟩ := Option.bind_eq_some_iff.mp hsystem
        cases hx.symm.trans hy
        exact (guard_bind_eq_some.mp hguard).1.1
      refine ⟨h.moved hx (fun r' st' hst' => .inr ?_) hnext, rfl⟩
      exact (hnext.batch id _ (Function.update_self ..)).read hres r' st' hst'
    | .execute id r =>
      have ⟨hnext, x, st, hx, heq⟩ := h.system.execute hsystem
      subst heq
      exact ⟨h.moved hx (fun _ _ hst => .inl hst) hnext, rfl⟩
    | .restore id r =>
      have ⟨hnext, x, readState, writtenState, hx, hnorm, heq⟩ := h.system.restore hcareful hsystem
      subst heq
      refine ⟨h.moved hx (fun r' st' hst' => ?_) hnext, rfl⟩
      change (x.setRead r readState).read r' = some st' at hst'
      rw [Batch.read_setRead] at hst'
      split at hst'
      · next heq =>
        cases hst'
        exact .inr (heq ▸ hnorm h.unpruned)
      · exact .inl hst'
    | .write id r =>
      have ⟨hnext, x, store, hx, heq⟩ := h.system.write hsystem
      subst heq
      exact ⟨h.moved hx (fun _ _ hst => .inl hst) hnext, rfl⟩
    | .evict r =>
      have hnext := h.system.evict hsystem
      have ⟨_, _, hrest⟩ := Option.bind_eq_some_iff.mp hsystem
      have ⟨_, heq⟩ := guard_bind_eq_some.mp hrest
      cases heq
      exact ⟨⟨hnext, h.unpruned, h.reads⟩, rfl⟩
    | .commit _ | .rollback _ | .finalize _ | .claim _ | .prune => cases hallowed
  · cases hstep

omit [DecidableEq D] in
theorem not_canceled {id : Nat} (h : (!s.canceled id) = true) : ∀ t ∈ s.rolling, id ≤ t := by
  intro t ht
  rw [canceled, Option.mem_def.mp ht, Option.any_some, Bool.not_eq_true', decide_eq_false_iff_not] at h
  omega

/-- A flush commits the child of the last committed block. -/
theorem Consistent.flush (h : s.Consistent B) {id : Nat} (hstep : s.flush B H hash cfg id = some s') :
    s'.Consistent B ∧ s.flushed = none ∧ (∀ t ∈ s.rolling, id ≤ t) ∧ s.system.lastCommitted < id ∧
      s.system.lastCommitted = B.parent id ∧ ∃ system, system.lastCommitted = id ∧
        s' = { s with system := system, storedCommitted := id, flushed := some id } := by
  unfold Pipeline.flush at hstep
  split at hstep
  · next hguard =>
    have ⟨hflushed, hopenId⟩ := Bool.and_eq_true_iff.mp hguard
    have hbelow := not_canceled hopenId
    have ⟨system, hsystem, heq⟩ := Option.map_eq_some_iff.mp hstep
    have ⟨x, hx, hsystem⟩ := Option.bind_eq_some_iff.mp hsystem
    have ⟨⟨hopen, hall, hstored⟩, hsystem⟩ := guard_bind_eq_some.mp hsystem
    have ⟨diffs, hdiffs, hsystem⟩ := Option.bind_eq_some_iff.mp hsystem
    have ⟨smt, hsmt, hsystem⟩ := Option.bind_eq_some_iff.mp hsystem
    cases hsystem
    cases heq
    -- the blocks a rollback on its way takes off the chain come after the batch
    replace hall : (s.system.chain.ids.all fun c => decide (id ≤ c) || s.system.isCommitted c) = true := by
      unfold chain at hall
      cases hrolling : s.rolling with
      | none =>
        rw [hrolling] at hall
        exact hall
      | some t =>
        rw [hrolling] at hall
        refine List.all_eq_true.mpr fun c hc => ?_
        by_cases hct : c ≤ t
        · exact List.all_eq_true.mp hall c (List.mem_filter.mpr ⟨hc, decide_eq_true hct⟩)
        · have := hbelow t hrolling
          rw [decide_eq_true (by omega), Bool.true_or]
    have hnext := h.system.commit hx hopen hall hstored hdiffs smt
    refine ⟨⟨hnext, h.unpruned, fun j y r st hy hst => ?_⟩, Option.isNone_iff_eq_none.mp hflushed, hbelow,
      h.system.last_lt hx hopen, h.system.last_eq_parent hx hopen hall, _, rfl, rfl⟩
    dsimp only at hy
    rw [Function.update_apply] at hy
    split at hy
    · next hj =>
      subst hj
      cases hy
      exact h.reads j x r st hx hst
    · exact h.reads j y r st hy hst
  · cases hstep

omit [DecidableEq D] in
theorem Consistent.executeRollback (h : s.Consistent B) (hstep : s.executeRollback cfg = some s') :
    s'.Consistent B ∧ ∃ t system, s.rolling = some t ∧ s.flushed = none ∧
      system.lastCommitted = min s.system.lastCommitted t ∧ s' = { s with
        system := system
        lastCommitted := if decide (t < s.lastCommitted) then t else s.lastCommitted
        storedCommitted := if decide (t < s.lastCommitted) then t else s.storedCommitted
        rolling := none
        target := t } := by
  unfold Pipeline.executeRollback at hstep
  split at hstep
  · next t hrolling hflushed =>
    have ⟨system, hsystem, heq⟩ := Option.map_eq_some_iff.mp hstep
    have hnext := h.system.rollback (.inl (by rw [h.unpruned]; exact Nat.zero_le _)) hsystem
    obtain ⟨_, _, _, hsame⟩ := System.rollback_eq hsystem
    subst hsame
    cases heq
    refine ⟨⟨hnext, h.unpruned, fun j y r st hy hst => ?_⟩, t, _, hrolling, hflushed, rfl, rfl⟩
    dsimp only at hy
    split at hy
    · exact h.reads j y r st hy hst
    · cases hy
  · cases hstep

theorem step_consistent (h : s.Consistent B) {e : Event} (hcareful : s.Careful B e)
    (hstep : s.step B H hash cfg e = some s') : s'.Consistent B := by
  match e with
  | .work e => exact (h.work hcareful hstep).1
  | .flush id => exact (h.flush hstep).1
  | .commitDone =>
    have ⟨id, _, heq⟩ := Option.map_eq_some_iff.mp hstep
    cases heq
    exact ⟨h.system, h.unpruned, h.reads⟩
  | .cancel target =>
    simp only [step, cancel] at hstep
    split at hstep
    · cases hstep
      exact ⟨h.system, h.unpruned, h.reads⟩
    · cases hstep
  | .executeRollback => exact (h.executeRollback hstep).1

theorem run_consistent {events : List Event} (h : s.Consistent B)
    (hcareful : Along (step B H hash cfg) (Careful B) s events)
    (hrun : run (step B H hash cfg) s events = some s') : s'.Consistent B :=
  Runs.invariant (fun h hcareful hstep => step_consistent h hcareful hstep) h hcareful hrun

omit [DecidableEq D] in
/-- Once every block has committed, the latest pointers name the state they leave. -/
theorem Consistent.latest (h : s.Consistent B) (htarget : s.target ≤ s.system.lastCommitted)
    (r : ResourceId) : s.system.store.latestPtr r =
      StateStore.repointed (B.snapshot s.system.lastCommitted r).version :=
  h.system.stored.latest htarget r

omit [DecidableEq D] in
/-- The blocks up to `t` have committed, and no others. -/
theorem Consistent.last_eq (h : s.Consistent B) {t : Nat} (ht : t = 0 ∨ t ∈ s.system.chain.ids)
    (hcommitted : ∀ j ∈ s.system.chain.ids, s.system.isCommitted j = true ↔ j ≤ t) :
    s.system.lastCommitted = t := by
  have hcanonical : ∀ j, 0 < j → B.Anc j s.system.chain.tip →
      (j ≤ s.system.lastCommitted ↔ j ≤ t) := by
    intro j hpos hj
    obtain ⟨y, hy⟩ := h.system.held j hpos hj
    rw [← hcommitted j ((h.system.ids j).mpr ⟨hpos, hj⟩), System.isCommitted, hy, Option.any_some]
    exact (h.system.committed_iff hy).symm
  refine Nat.le_antisymm ?_ ?_
  · rcases Nat.eq_zero_or_pos s.system.lastCommitted with hzero | hpos
    · omega
    · exact (hcanonical _ hpos h.system.last).mp (Nat.le_refl _)
  · rcases ht with hzero | hmem
    · omega
    · obtain ⟨hpos, hj⟩ := (h.system.ids t).mp hmem
      exact (hcanonical t hpos hj).mpr (Nat.le_refl _)

end Pipeline

end Vprogs.Scheduler
