import Vprogs.Scheduler.Cancellation
import Mathlib.Data.List.Induction

/-!
What the aggregate prover's worker is fed by: the scheduler's thread, which submits
batches and reports rollbacks after the walk that cancels, the executors, which open
the latches of canceled batches, and the batch prover, which publishes receipts. Each
event is one access of a cell that the worker reads concurrently.
-/
namespace Vprogs.Aggregate

open Scheduler (CancellationContext uncanceled canceledParentContext)
open Scheduler.Cancellation (Linked)

/-- A `ScheduledBatch` handle; the number is that of its submission. -/
structure ScheduledBatch where
  number : Nat
  index : Nat
  context : CancellationContext
  /-- `txs().is_empty()`. -/
  empty : Bool
  /-- The block hash in the checkpoint's metadata. -/
  block : Nat
  deriving DecidableEq, Repr

inductive Command where
  | batch (batch : ScheduledBatch)
  | rollback (target : Nat)
  deriving DecidableEq, Repr

/-- The batches of the commands, in order, whatever came after them. -/
def batches (log : List Command) : List ScheduledBatch :=
  log.filterMap fun
    | .batch b => some b
    | .rollback _ => none

/-- What one command does to the list of batches that are not rolled back. -/
def Command.apply (chain : List ScheduledBatch) : Command → List ScheduledBatch
  | .batch b => chain ++ [b]
  | .rollback target => chain.filter (·.index ≤ target)

/-- The batches that are submitted and not rolled back after the commands. -/
def replay (log : List Command) : List ScheduledBatch := log.foldl Command.apply []

/-- Where the scheduler's thread is in `rollback_to`. -/
inductive Rolling where
  | idle
  /-- About to store the target in the context's threshold. -/
  | visiting (target : Nat) (context : CancellationContext) (parents : List CancellationContext)
  /-- The walk has ended; the new context will have these parents. -/
  | canceled (target : Nat) (parents : List CancellationContext)
  deriving DecidableEq, Repr

structure Upstream where
  current : CancellationContext
  parents : List CancellationContext
  thresholds : Nat → Nat
  created : Nat
  tip : Nat
  rolling : Rolling
  submitted : Nat
  /-- Every command pushed to the inbox so far. -/
  log : List Command
  /-- The `artifact_published` latches. -/
  opened : ScheduledBatch → Bool
  /-- Whether the `artifact` cell holds a receipt. -/
  artifact : ScheduledBatch → Bool

inductive UpstreamEvent where
  | submit (index : Nat) (empty : Bool) (block : Nat)
  | beginRollback (target : Nat)
  /-- One context of `canceled_parent_context`, with the outcome of `upgrade`. -/
  | visit (parentAlive : Bool)
  | pushRollback
  /-- `decrease_pending_txs` of a canceled batch. -/
  | forceOpen (batch : ScheduledBatch)
  /-- The two halves of `publish_artifact`. -/
  | storeArtifact (batch : ScheduledBatch)
  | openArtifact (batch : ScheduledBatch)
  deriving DecidableEq, Repr

/-- One round of the walk: what is left to do after the context's threshold is stored. -/
def nextContext (parentAlive : Bool) (target : Nat) (context : CancellationContext) :
    List CancellationContext → Rolling
  | [] => .canceled target (if context.firstIndex ≤ target then [context] else [])
  | parent :: parents =>
    if context.firstIndex ≤ target then .canceled target (context :: parent :: parents)
    else if parentAlive then .visiting target parent parents
    else .canceled target []

namespace Upstream

/-- A scheduler with nothing in flight. An empty batch's latch is open from the start. -/
def new (root tip : Nat) : Upstream where
  current := ⟨0, root⟩
  parents := []
  thresholds _ := uncanceled
  created := 1
  tip := tip
  rolling := .idle
  submitted := 0
  log := []
  opened b := b.empty
  artifact _ := false

variable (u : Upstream)

def canceled (b : ScheduledBatch) : Prop := u.thresholds b.context.id < b.index

instance (b : ScheduledBatch) : Decidable (u.canceled b) := inferInstanceAs (Decidable (_ < _))

/-- An id is scheduled above the tip, new or returning, and a rollback goes below it. -/
def step : UpstreamEvent → Option Upstream
  | .submit index empty block =>
    if u.rolling = .idle ∧ u.tip < index ∧ index ≤ uncanceled then
      some { u with
        tip := index
        submitted := u.submitted + 1
        log := u.log ++ [.batch ⟨u.submitted, index, u.current, empty, block⟩] }
    else none
  | .beginRollback target =>
    if u.rolling = .idle ∧ target < u.tip ∧ target ≤ uncanceled then
      some { u with rolling := .visiting target u.current u.parents }
    else none
  | .visit parentAlive =>
    match u.rolling with
    | .visiting target context parents => some { u with
        thresholds := Function.update u.thresholds context.id target
        rolling := nextContext parentAlive target context parents }
    | _ => none
  | .pushRollback =>
    match u.rolling with
    | .canceled target parents => some { u with
        current := ⟨u.created, target⟩
        parents := parents
        created := u.created + 1
        tip := target
        rolling := .idle
        log := u.log ++ [.rollback target] }
    | _ => none
  | .forceOpen b =>
    if u.canceled b then some { u with opened := Function.update u.opened b true } else none
  | .storeArtifact b =>
    if b.empty then none else some { u with artifact := Function.update u.artifact b true }
  | .openArtifact b =>
    if b.empty || u.artifact b then some { u with opened := Function.update u.opened b true }
    else none

end Upstream

/-! ### Commands -/

@[simp] theorem batches_append (log rest : List Command) :
    batches (log ++ rest) = batches log ++ batches rest := List.filterMap_append

theorem replay_concat (log : List Command) (c : Command) : replay (log ++ [c]) = c.apply (replay log) := by
  rw [replay, List.foldl_append]
  rfl

theorem mem_batches_of_replay {log : List Command} {b : ScheduledBatch} (h : b ∈ replay log) :
    b ∈ batches log := by
  induction log using List.reverseRecOn with
  | nil => cases h
  | append_singleton log c ih =>
    rw [replay_concat] at h
    rw [batches_append, List.mem_append]
    cases c with
    | batch b' => exact (List.mem_append.mp h).imp ih id
    | rollback target => exact .inl (ih (List.mem_of_mem_filter h))

/-- A command after which the batch was submitted rolled nothing of it back. -/
theorem index_le_of_replay {before after : List Command} {target : Nat} {b : ScheduledBatch}
    (h : b ∈ replay (before ++ .rollback target :: after)) (hafter : b ∉ batches after) :
    b.index ≤ target := by
  induction after using List.reverseRecOn with
  | nil =>
    rw [replay_concat] at h
    exact of_decide_eq_true (List.mem_filter.mp h).2
  | append_singleton after c ih =>
    rw [← List.cons_append, ← List.append_assoc, replay_concat] at h
    rw [batches_append, List.mem_append, not_or] at hafter
    cases c with
    | batch b' => exact ih ((List.mem_append.mp h).resolve_right hafter.2) hafter.1
    | rollback target' => exact ih (List.mem_of_mem_filter h) hafter.1

/-- Every batch of the log is related to those it was submitted behind. -/
def Nested (R : ScheduledBatch → ScheduledBatch → Prop) (log : List Command) : Prop :=
  ∀ before b after, log = before ++ .batch b :: after → ∀ b' ∈ replay before, R b' b

section

variable {R R' : ScheduledBatch → ScheduledBatch → Prop} {log rest : List Command}

theorem Nested.of_append (h : Nested R (log ++ rest)) : Nested R log := by
  rintro before b after rfl
  exact h before b (after ++ rest) (by rw [List.append_assoc, List.cons_append])

theorem Nested.imp (h : Nested R log) (himp : ∀ {a b}, a ∈ batches log → b ∈ batches log → R a b → R' a b) :
    Nested R' log := by
  rintro before b after rfl b' hb'
  refine himp ?_ ?_ (h before b after rfl b' hb')
  · rw [batches_append]
    exact List.mem_append_left _ (mem_batches_of_replay hb')
  · rw [batches_append]
    exact List.mem_append_right _ List.mem_cons_self

theorem nested_concat_batch {b : ScheduledBatch} (h : Nested R log) (hb : ∀ b' ∈ replay log, R b' b) :
    Nested R (log ++ [.batch b]) := by
  intro before b' after heq
  rcases List.eq_nil_or_concat after with rfl | ⟨after, c, rfl⟩
  · have ⟨hbefore, hlast⟩ := List.append_inj' heq rfl
    cases hlast
    subst hbefore
    exact hb
  · rw [List.concat_eq_append, ← List.cons_append, ← List.append_assoc] at heq
    exact h before b' after (List.append_inj' heq rfl).1

theorem nested_concat_rollback {target : Nat} (h : Nested R log) :
    Nested R (log ++ [.rollback target]) := by
  intro before b' after heq
  rcases List.eq_nil_or_concat after with rfl | ⟨after, c, rfl⟩
  · cases (List.append_inj' heq rfl).2
  · rw [List.concat_eq_append, ← List.cons_append, ← List.append_assoc] at heq
    exact h before b' after (List.append_inj' heq rfl).1

theorem Nested.pairwise (h : Nested R log) : (replay log).Pairwise R := by
  induction log using List.reverseRecOn with
  | nil => exact .nil
  | append_singleton log c ih =>
    rw [replay_concat]
    cases c with
    | batch b =>
      refine List.pairwise_append.mpr ⟨ih h.of_append, List.pairwise_singleton _ _, ?_⟩
      intro b' hb' b'' hb''
      rw [List.mem_singleton.mp hb'']
      exact h log b [] rfl b' hb'
    | rollback target => exact (ih h.of_append).filter _

end

/-! ### The walk -/

namespace Upstream

variable {u u' : Upstream}

/-- The rounds of a walk that nothing interrupts do what `canceledParentContext` does in one go. -/
theorem run_visits (alive : Nat → Bool) {target : Nat} {context : CancellationContext}
    {parents : List CancellationContext} (h : u.rolling = .visiting target context parents) :
    ∃ rounds : List Bool, Runs.run step u (rounds.map .visit) = some { u with
      thresholds := (canceledParentContext alive target context parents u.thresholds).1
      rolling := .canceled target (canceledParentContext alive target context parents u.thresholds).2 } := by
  induction parents generalizing u context with
  | nil => exact ⟨[false], by simp [Runs.run, step, h, nextContext, canceledParentContext]⟩
  | cons parent parents ih =>
    by_cases hstop : context.firstIndex ≤ target
    · exact ⟨[false], by simp [Runs.run, step, h, nextContext, canceledParentContext, hstop]⟩
    · cases hparent : alive parent.id with
      | false => exact ⟨[false], by simp [Runs.run, step, h, nextContext, canceledParentContext, hstop, hparent]⟩
      | true =>
        -- the round stores the threshold and goes on at the parent
        let stored : Upstream := { u with
          thresholds := Function.update u.thresholds context.id target
          rolling := .visiting target parent parents }
        obtain ⟨rounds, hrounds⟩ := ih (u := stored) rfl
        have hround : u.step (.visit true) = some stored := by simp [step, h, nextContext, hstop, stored]
        refine ⟨true :: rounds, Runs.run_cons.mpr ⟨stored, hround, ?_⟩⟩
        rw [hrounds]
        simp [canceledParentContext, hstop, hparent, stored]

/-! ### What holds upstream in every run -/

/-- The contexts that the walk may still visit. -/
def reachable (u : Upstream) : List CancellationContext :=
  match u.rolling with
  | .idle => u.current :: u.parents
  | .visiting _ context parents => context :: parents
  | .canceled _ parents => parents

/-- How the walk stands: thresholds only go down from here. -/
def WalkOk (u : Upstream) : Prop :=
  match u.rolling with
  | .idle => u.thresholds u.current.id = uncanceled ∧ Linked u.thresholds u.current u.parents ∧
      u.current.firstIndex ≤ u.tip ∧ ∀ b ∈ replay u.log, ¬ u.canceled b
  | .visiting target context parents => target ≤ u.thresholds context.id ∧
      Linked u.thresholds context parents ∧ context.id < u.created ∧
      ∀ b ∈ replay u.log, u.canceled b → target < b.index
  | .canceled target parents => Linked u.thresholds ⟨u.created, target⟩ parents ∧
      ∀ b ∈ replay u.log, u.canceled b → target < b.index

/-- A batch submitted behind another has the higher number and index, and is canceled
when the other is. -/
structure Behind (thresholds : Nat → Nat) (a b : ScheduledBatch) : Prop where
  number : a.number < b.number
  index : a.index < b.index
  context : a.context.id ≤ b.context.id
  canceled : thresholds a.context.id < a.index → thresholds b.context.id < b.index

structure Sound (u : Upstream) : Prop where
  walk : u.WalkOk
  current : u.current.id + 1 = u.created
  unused : ∀ id, u.created ≤ id → u.thresholds id = uncanceled
  contexts : ∀ b ∈ batches u.log, b.context.id < u.created ∧ b.context.firstIndex < b.index
  /-- A batch in a context that the walk has left behind is canceled. -/
  passed : ∀ b ∈ batches u.log, ∀ c ∈ u.reachable, c.id < b.context.id →
    b.context ∈ u.reachable ∨ u.canceled b
  tip : ∀ b ∈ replay u.log, b.index ≤ u.tip
  numbered : (batches u.log).Pairwise (·.number < ·.number)
  numbers : ∀ b ∈ batches u.log, b.number < u.submitted
  nested : Nested (Behind u.thresholds) u.log
  opened : ∀ b, u.opened b = true → b.empty = true ∨ u.artifact b = true ∨ u.canceled b

theorem sound_new {root tip : Nat} (h : root ≤ tip) : (new root tip).Sound where
  walk := ⟨rfl, trivial, h, nofun⟩
  current := rfl
  unused _ _ := rfl
  contexts := nofun
  passed := nofun
  tip := nofun
  numbered := .nil
  numbers := nofun
  nested := by
    intro before b after heq
    simp [new] at heq
  opened b h := .inl h

/-- What later states of the upstream threads keep. -/
structure Later (u u' : Upstream) : Prop where
  log : u.log <+: u'.log
  canceled : ∀ b, u.canceled b → u'.canceled b
  artifact : ∀ b, u.artifact b = true → u'.artifact b = true

section

variable {index target block : Nat} {empty alive : Bool} {b : ScheduledBatch}

theorem Sound.submit (h : u.Sound) (hidle : u.rolling = .idle) (htip : u.tip < index)
    (hmax : index ≤ uncanceled) :
    Sound { u with
      tip := index
      submitted := u.submitted + 1
      log := u.log ++ [.batch ⟨u.submitted, index, u.current, empty, block⟩] } := by
  have hwalk := h.walk
  simp only [WalkOk, hidle] at hwalk
  have ⟨hcurrent, hlinked, hfirst, hkept⟩ := hwalk
  have hcreated := h.current
  have hnew : ¬ u.canceled ⟨u.submitted, index, u.current, empty, block⟩ := by
    simp only [canceled, hcurrent]
    omega
  have hmem {P : ScheduledBatch → Prop} (hold : ∀ b ∈ batches u.log, P b)
      (hlast : P ⟨u.submitted, index, u.current, empty, block⟩) :
      ∀ b ∈ batches (u.log ++ [.batch ⟨u.submitted, index, u.current, empty, block⟩]), P b := by
    rw [batches_append]
    exact fun b hb => (List.mem_append.mp hb).elim (hold b) fun hb => List.mem_singleton.mp hb ▸ hlast
  have hchain {P : ScheduledBatch → Prop} (hold : ∀ b ∈ replay u.log, P b)
      (hlast : P ⟨u.submitted, index, u.current, empty, block⟩) :
      ∀ b ∈ replay (u.log ++ [.batch ⟨u.submitted, index, u.current, empty, block⟩]), P b := by
    rw [replay_concat]
    exact fun b hb => (List.mem_append.mp hb).elim (hold b) fun hb => List.mem_singleton.mp hb ▸ hlast
  constructor
  case walk =>
    simp only [WalkOk, hidle]
    exact ⟨hcurrent, hlinked, by omega, hchain hkept hnew⟩
  case current => exact hcreated
  case unused => exact h.unused
  case contexts => exact hmem h.contexts ⟨by dsimp only; omega, by dsimp only; omega⟩
  case passed =>
    refine hmem h.passed fun c _ _ => .inl ?_
    simp only [reachable, hidle]
    exact List.mem_cons_self
  case tip => exact hchain (fun b hb => by have := h.tip b hb; dsimp only; omega) (Nat.le_refl _)
  case numbered =>
    rw [batches_append]
    refine List.pairwise_append.mpr ⟨h.numbered, List.pairwise_singleton _ _, fun b hb b' hb' => ?_⟩
    rw [List.mem_singleton.mp hb']
    exact h.numbers b hb
  case numbers => exact hmem (fun b hb => Nat.lt_succ_of_lt (h.numbers b hb)) (Nat.lt_succ_self _)
  case nested =>
    refine nested_concat_batch h.nested fun b hb => ?_
    have hb' := mem_batches_of_replay hb
    have := (h.contexts b hb').1
    have := h.tip b hb
    exact ⟨h.numbers b hb', by dsimp only; omega, by dsimp only; omega, fun hc => absurd hc (hkept b hb)⟩
  case opened => exact h.opened

theorem Sound.beginRollback (h : u.Sound) (hidle : u.rolling = .idle) (hmax : target ≤ uncanceled) :
    Sound { u with rolling := .visiting target u.current u.parents } := by
  have hwalk := h.walk
  simp only [WalkOk, hidle] at hwalk
  have ⟨hcurrent, hlinked, _, hkept⟩ := hwalk
  have hpassed := h.passed
  simp only [reachable, hidle] at hpassed
  exact { h with
    walk := ⟨hcurrent ▸ hmax, hlinked, h.current ▸ Nat.lt_succ_self _,
      fun b hb hc => absurd hc (hkept b hb)⟩
    passed := hpassed }

theorem nextContext_cases (alive : Bool) (target : Nat) (context : CancellationContext)
    (parents : List CancellationContext) :
    context.firstIndex ≤ target ∧
        nextContext alive target context parents = .canceled target (context :: parents) ∨
      target < context.firstIndex ∧ (nextContext alive target context parents = .canceled target [] ∨
        ∃ parent rest, parents = parent :: rest ∧
          nextContext alive target context parents = .visiting target parent rest) := by
  by_cases hstop : context.firstIndex ≤ target
  · refine .inl ⟨hstop, ?_⟩
    cases parents <;> simp only [nextContext, if_pos hstop]
  · refine .inr ⟨Nat.lt_of_not_le hstop, ?_⟩
    match parents, alive with
    | [], _ => simp [nextContext, hstop]
    | parent :: rest, true => exact .inr ⟨parent, rest, rfl, by simp [nextContext, hstop]⟩
    | parent :: rest, false => simp [nextContext, hstop]

section

variable {context : CancellationContext} {parents : List CancellationContext}

/-- A stored threshold is never above the one it replaces. -/
theorem update_le {thresholds : Nat → Nat} {id : Nat} (h : target ≤ thresholds id) (id' : Nat) :
    Function.update thresholds id target id' ≤ thresholds id' := by
  by_cases hid : id' = id
  · subst hid
    rwa [Function.update_self]
  · exact Nat.le_of_eq (Function.update_of_ne hid _ _)

theorem update_lt {thresholds : Nat → Nat} {id : Nat} (h : target ≤ thresholds id)
    (hb : thresholds b.context.id < b.index) :
    Function.update thresholds id target b.context.id < b.index :=
  Nat.lt_of_le_of_lt (update_le h _) hb

section

variable (h : u.Sound) (hvisit : u.rolling = .visiting target context parents)

include h hvisit

theorem Sound.visiting : target ≤ u.thresholds context.id ∧
    Linked u.thresholds context parents ∧ context.id < u.created ∧
    ∀ b ∈ replay u.log, u.canceled b → target < b.index := by
  simpa only [WalkOk, hvisit] using h.walk

theorem Sound.passed_visiting : ∀ b ∈ batches u.log, ∀ c ∈ context :: parents,
    c.id < b.context.id → b.context ∈ context :: parents ∨ u.canceled b := by
  simpa only [reachable, hvisit] using h.passed

theorem Sound.kept_visit : ∀ b ∈ replay u.log,
    Function.update u.thresholds context.id target b.context.id < b.index → target < b.index := by
  intro b hb hc
  by_cases hid : b.context.id = context.id
  · rwa [hid, Function.update_self] at hc
  · rw [Function.update_of_ne hid] at hc
    exact (h.visiting hvisit).2.2.2 b hb hc

/-- The walk goes from newer contexts to older ones, so whoever is behind a batch that is
canceled now is in the same context, or in one that the walk has passed. -/
theorem Sound.nested_visit : Nested (Behind (Function.update u.thresholds context.id target)) u.log := by
  have ⟨hle, hlinked, _⟩ := h.visiting hvisit
  refine h.nested.imp fun {a b} _ hb hab => ⟨hab.number, hab.index, hab.context, fun hc => ?_⟩
  by_cases hid : a.context.id = context.id
  · rw [hid, Function.update_self] at hc
    by_cases hid' : b.context.id = context.id
    · rw [hid', Function.update_self]
      exact Nat.lt_trans hc hab.index
    · have hlt : context.id < b.context.id := by
        have := hab.context
        omega
      have hpassed := h.passed_visiting hvisit b hb context List.mem_cons_self hlt
      refine update_lt hle (hpassed.resolve_left fun hmem => ?_)
      match List.mem_cons.mp hmem with
      | .inl heq => exact hid' (heq ▸ rfl)
      | .inr hmem => exact Nat.lt_asymm hlt (hlinked.mem_lt hmem)
  · rw [Function.update_of_ne hid] at hc
    exact update_lt hle (hab.canceled hc)

theorem Sound.walk_visit :
    WalkOk { u with
      thresholds := Function.update u.thresholds context.id target
      rolling := nextContext alive target context parents } := by
  have ⟨_, hlinked, hcreated, _⟩ := h.visiting hvisit
  have hkept := h.kept_visit hvisit
  match nextContext_cases alive target context parents with
  | .inl ⟨hstop, heq⟩ =>
    simp only [WalkOk, heq]
    exact ⟨⟨Function.update_self _ _ _, hstop, hcreated, hlinked.update⟩, hkept⟩
  | .inr ⟨_, .inl heq⟩ =>
    simp only [WalkOk, heq]
    exact ⟨trivial, hkept⟩
  | .inr ⟨hgo, .inr ⟨parent, rest, hparents, heq⟩⟩ =>
    subst hparents
    have ⟨hthreshold, _, hlt, hrest⟩ := hlinked
    have hother : ∀ id < context.id,
        Function.update u.thresholds context.id target id = u.thresholds id :=
      fun id hid => Function.update_of_ne (Nat.ne_of_lt hid) _ _
    simp only [WalkOk, heq]
    refine ⟨?_, hrest.congr fun id hid => hother id (Nat.lt_trans hid hlt),
      Nat.lt_trans hlt hcreated, hkept⟩
    rw [hother _ hlt, hthreshold]
    exact Nat.le_of_lt hgo

theorem Sound.passed_visit : ∀ b ∈ batches u.log, ∀ c ∈ reachable { u with
      thresholds := Function.update u.thresholds context.id target
      rolling := nextContext alive target context parents }, c.id < b.context.id →
    b.context ∈ reachable { u with
      thresholds := Function.update u.thresholds context.id target
      rolling := nextContext alive target context parents } ∨
        Function.update u.thresholds context.id target b.context.id < b.index := by
  have hle := (h.visiting hvisit).1
  have hpassed := h.passed_visiting hvisit
  match nextContext_cases alive target context parents with
  | .inl ⟨_, heq⟩ =>
    simp only [reachable, heq]
    exact fun b hb c hc hlt => (hpassed b hb c hc hlt).imp id (update_lt hle)
  | .inr ⟨_, .inl heq⟩ =>
    simp only [reachable, heq]
    exact nofun
  | .inr ⟨hgo, .inr ⟨parent, rest, hparents, heq⟩⟩ =>
    subst hparents
    simp only [reachable, heq]
    intro b hb c hc hlt
    match hpassed b hb c (List.mem_cons_of_mem _ hc) hlt with
    | .inr hcanceled => exact .inr (update_lt hle hcanceled)
    | .inl hmem =>
      refine (List.mem_cons.mp hmem).symm.imp id fun hcontext => ?_
      have hfirst := (h.contexts b hb).2
      rw [hcontext] at hfirst ⊢
      rw [Function.update_self]
      exact Nat.lt_trans hgo hfirst

theorem Sound.visit :
    Sound { u with
      thresholds := Function.update u.thresholds context.id target
      rolling := nextContext alive target context parents } := by
  have ⟨hle, _, hcreated, _⟩ := h.visiting hvisit
  refine { h with
    walk := h.walk_visit hvisit
    unused := fun id hid => ?_
    passed := h.passed_visit hvisit
    nested := h.nested_visit hvisit
    opened := fun b hb => (h.opened b hb).imp id (Or.imp id (update_lt hle)) }
  have hne : id ≠ context.id := Nat.ne_of_gt (Nat.lt_of_lt_of_le hcreated hid)
  exact (Function.update_of_ne hne _ _).trans (h.unused id hid)

end

theorem Sound.pushRollback (h : u.Sound) (hdone : u.rolling = .canceled target parents) :
    Sound { u with
      current := ⟨u.created, target⟩
      parents := parents
      created := u.created + 1
      tip := target
      rolling := .idle
      log := u.log ++ [.rollback target] } := by
  have hwalk := h.walk
  simp only [WalkOk, hdone] at hwalk
  have ⟨hlinked, hkept⟩ := hwalk
  have hpassed := h.passed
  simp only [reachable, hdone] at hpassed
  have hbatches : batches (u.log ++ [.rollback target]) = batches u.log := by simp [batches]
  have hchain : ∀ b ∈ replay (u.log ++ [.rollback target]), b ∈ replay u.log ∧ b.index ≤ target := by
    rw [replay_concat]
    exact fun b hb => ⟨(List.mem_filter.mp hb).1, of_decide_eq_true (List.mem_filter.mp hb).2⟩
  constructor
  case walk =>
    refine ⟨h.unused _ (Nat.le_refl _), hlinked, Nat.le_refl _, fun b hb hc => ?_⟩
    have ⟨hmem, hindex⟩ := hchain b hb
    exact Nat.not_lt_of_le hindex (hkept b hmem hc)
  case current => rfl
  case unused => exact fun id hid => h.unused id (Nat.le_of_succ_le hid)
  case contexts =>
    rw [hbatches]
    exact fun b hb => ⟨Nat.lt_succ_of_lt (h.contexts b hb).1, (h.contexts b hb).2⟩
  case passed =>
    rw [hbatches]
    intro b hb c hc hlt
    match List.mem_cons.mp hc with
    | .inl heq =>
      have := (h.contexts b hb).1
      rw [heq] at hlt
      exact absurd hlt (Nat.not_lt_of_le (Nat.le_of_lt this))
    | .inr hc => exact (hpassed b hb c hc hlt).imp (List.mem_cons_of_mem _) id
  case tip => exact fun b hb => (hchain b hb).2
  case numbered =>
    rw [hbatches]
    exact h.numbered
  case numbers =>
    rw [hbatches]
    exact h.numbers
  case nested => exact nested_concat_rollback h.nested
  case opened => exact h.opened

end

theorem Sound.openLatch (h : u.Sound) (hb : b.empty = true ∨ u.artifact b = true ∨ u.canceled b) :
    Sound { u with opened := Function.update u.opened b true } := by
  refine { h with opened := fun b' hb' => ?_ }
  change Function.update u.opened b true b' = true at hb'
  by_cases heq : b' = b
  · exact heq ▸ hb
  · rw [Function.update_of_ne heq] at hb'
    exact h.opened b' hb'

theorem artifact_update {artifact : ScheduledBatch → Bool} {b' : ScheduledBatch}
    (h : artifact b' = true) : Function.update artifact b true b' = true := by
  by_cases heq : b' = b
  · rw [heq, Function.update_self]
  · rwa [Function.update_of_ne heq]

theorem Sound.storeArtifact (h : u.Sound) :
    Sound { u with artifact := Function.update u.artifact b true } :=
  { h with opened := fun b' hb' => (h.opened b' hb').imp id (Or.imp artifact_update id) }

theorem Sound.step {e : UpstreamEvent} (h : u.Sound) (hstep : u.step e = some u') :
    u'.Sound ∧ u.Later u' := by
  have hsame : u.Later u := ⟨List.prefix_refl _, fun _ hc => hc, fun _ ha => ha⟩
  match e with
  | .submit index empty block =>
    simp only [Upstream.step] at hstep
    split at hstep <;> cases hstep
    case isTrue hguard =>
      exact ⟨h.submit hguard.1 hguard.2.1 hguard.2.2, { hsame with log := List.prefix_append _ _ }⟩
  | .beginRollback target =>
    simp only [Upstream.step] at hstep
    split at hstep <;> cases hstep
    case isTrue hguard => exact ⟨h.beginRollback hguard.1 hguard.2.2, { hsame with }⟩
  | .visit alive =>
    simp only [Upstream.step] at hstep
    split at hstep <;> cases hstep
    next hvisit =>
      exact ⟨h.visit hvisit, { hsame with
        canceled := fun b hb => update_lt (h.visiting hvisit).1 hb }⟩
  | .pushRollback =>
    simp only [Upstream.step] at hstep
    split at hstep <;> cases hstep
    next hdone => exact ⟨h.pushRollback hdone, { hsame with log := List.prefix_append _ _ }⟩
  | .forceOpen b =>
    simp only [Upstream.step] at hstep
    split at hstep <;> cases hstep
    case isTrue hcanceled => exact ⟨h.openLatch (.inr (.inr hcanceled)), { hsame with }⟩
  | .storeArtifact b =>
    simp only [Upstream.step] at hstep
    split at hstep <;> cases hstep
    exact ⟨h.storeArtifact, { hsame with artifact := fun b' hb' => artifact_update hb' }⟩
  | .openArtifact b =>
    simp only [Upstream.step] at hstep
    split at hstep <;> cases hstep
    case isTrue hready =>
      exact ⟨h.openLatch ((Bool.or_eq_true _ _ ▸ hready).imp id .inl), { hsame with }⟩

end

end Upstream

end Vprogs.Aggregate
