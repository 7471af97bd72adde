import Vprogs.Runs
import Mathlib.Algebra.Group.Nat.Defs

/-!
Cancellation of batches by rollbacks. Every rollback replaces the scheduler's context
by a new one that points weakly to the context holding the rollback target; batches
keep the context they were scheduled under. A context that no batch keeps any more is
freed, and the walk of a later rollback ends there.
-/
namespace Vprogs.Scheduler

/-- The immutable part of a `CancellationContext`; the identity stands for its address. -/
structure CancellationContext where
  id : Nat
  firstIndex : Nat
  deriving DecidableEq, Repr

/-- A batch handle, with the targets of the rollbacks since it was scheduled. -/
structure BatchHandle where
  index : Nat
  context : Nat
  since : List Nat
  deriving DecidableEq, Repr

/-- `u64::MAX`, the threshold of a context that has seen no rollback. -/
def uncanceled : Nat := 2 ^ 64 - 1

/-- `canceled_parent_context`: stores the threshold in every context it visits and
returns the context that becomes the parent, with its own chain of parents. -/
def canceledParentContext (alive : Nat → Bool) (index : Nat) (context : CancellationContext) :
    List CancellationContext → (Nat → Nat) → (Nat → Nat) × List CancellationContext
  | [], thresholds =>
    (Function.update thresholds context.id index,
      if context.firstIndex ≤ index then [context] else [])
  | parent :: parents, thresholds =>
    let stored := Function.update thresholds context.id index
    if context.firstIndex ≤ index then (stored, context :: parent :: parents)
    else if alive parent.id then canceledParentContext alive index parent parents stored
    else (stored, [])

structure Cancellation where
  current : CancellationContext
  /-- The chain of weak parent links of the current context. -/
  parents : List CancellationContext
  /-- `cancel_threshold` of every context. -/
  thresholds : Nat → Nat
  /-- Number of contexts created so far. -/
  created : Nat
  canonical : List Nat
  tip : Nat
  handles : List BatchHandle

inductive CancellationEvent where
  | schedule (index : Nat)
  /-- The last clone of the `n`th handle is dropped. -/
  | drop (n : Nat)
  | rollback (target : Nat)
  deriving DecidableEq, Repr

namespace Cancellation

/-- A scheduler that starts at a root and a canonical chain, with no batch in flight. -/
def new (root tip : Nat) (canonical : List Nat) : Cancellation where
  current := ⟨0, root⟩
  parents := []
  thresholds _ := uncanceled
  created := 1
  canonical := canonical
  tip := tip
  handles := []

variable (s : Cancellation)

/-- Some strong reference is left. -/
def alive (id : Nat) : Bool :=
  id == s.current.id || s.handles.any (·.context == id)

def canceled (h : BatchHandle) : Prop :=
  s.thresholds h.context < h.index

instance (h : BatchHandle) : Decidable (s.canceled h) := inferInstanceAs (Decidable (_ < _))

def rollback (target : Nat) : Cancellation :=
  let (thresholds, parents) :=
    canceledParentContext s.alive target s.current s.parents s.thresholds
  { s with
    current := ⟨s.created, target⟩
    parents := parents
    thresholds := thresholds
    created := s.created + 1
    canonical := s.canonical.filter (· ≤ target)
    tip := target
    handles := s.handles.map fun h => { h with since := target :: h.since } }

/-- An id is scheduled above the tip, new or returning; a rollback goes to a canonical
index or to genesis. -/
def step : CancellationEvent → Option Cancellation
  | .schedule index =>
    if s.tip < index ∧ index ≤ uncanceled then
      some { s with
        canonical := index :: s.canonical
        tip := index
        handles := s.handles ++ [⟨index, s.current.id, []⟩] }
    else none
  | .drop n => if n < s.handles.length then some { s with handles := s.handles.eraseIdx n } else none
  | .rollback target =>
    if (target ∈ s.canonical ∨ target = 0) ∧ target ≤ uncanceled then some (s.rollback target)
    else none

/-- Every batch still held is canceled exactly when a rollback below its index happened
after it was scheduled. -/
def Exact : Prop :=
  ∀ h ∈ s.handles, s.canceled h ↔ ∃ target ∈ h.since, target < h.index

instance : Decidable s.Exact := inferInstanceAs (Decidable (∀ h ∈ s.handles, _))

/-- The parent links lead from a context to the one named, over live contexts. -/
def Reaches (alive : Nat → Bool) (context : CancellationContext) :
    List CancellationContext → Nat → Prop
  | [], id => context.id = id
  | parent :: parents, id =>
    context.id = id ∨ alive parent.id = true ∧ Reaches alive parent parents id

instance decidableReaches (alive : Nat → Bool) : ∀ context parents id,
    Decidable (Reaches alive context parents id)
  | context, [], id => inferInstanceAs (Decidable (context.id = id))
  | context, parent :: parents, id =>
    have := decidableReaches alive parent parents id
    inferInstanceAs (Decidable (context.id = id ∨ alive parent.id = true ∧ _))

/-- No context has been freed between the current one and that of a batch that the
rollback has to cancel. -/
def Unbroken : CancellationEvent → Prop
  | .rollback target => ∀ h ∈ s.handles, target < h.index → ¬s.canceled h →
      Reaches s.alive s.current s.parents h.context
  | _ => True

instance (e : CancellationEvent) : Decidable (s.Unbroken e) :=
  match e with
  | .schedule _ | .drop _ => isTrue trivial
  | .rollback _ => inferInstanceAs (Decidable (∀ h ∈ s.handles, _))

/-! ### The chain of contexts -/

/-- The threshold of a parent is where its child started, and the chain goes down. -/
def Linked (thresholds : Nat → Nat) (context : CancellationContext) :
    List CancellationContext → Prop
  | [] => True
  | parent :: parents => thresholds parent.id = context.firstIndex ∧
      parent.firstIndex ≤ context.firstIndex ∧ parent.id < context.id ∧
      Linked thresholds parent parents

variable {alive : Nat → Bool} {index : Nat} {context : CancellationContext}
  {parents : List CancellationContext} {thresholds thresholds' : Nat → Nat} {id : Nat}

theorem Linked.congr (h : Linked thresholds context parents)
    (heq : ∀ id < context.id, thresholds' id = thresholds id) : Linked thresholds' context parents := by
  induction parents generalizing context with
  | nil => trivial
  | cons parent parents ih =>
    have ⟨hthreshold, hfirst, hid, hrest⟩ := h
    refine ⟨(heq _ hid).trans hthreshold, hfirst, hid, ih hrest fun id hlt => ?_⟩
    exact heq id (Nat.lt_trans hlt hid)

theorem Linked.mem_lt {parent : CancellationContext} (h : Linked thresholds context parents)
    (hp : parent ∈ parents) : parent.id < context.id := by
  induction parents generalizing context with
  | nil => cases hp
  | cons first parents ih =>
    obtain ⟨_, _, hlt, hrest⟩ := h
    rcases List.mem_cons.mp hp with rfl | hp
    · exact hlt
    · exact Nat.lt_trans (ih hrest hp) hlt

theorem Linked.update (h : Linked thresholds context parents) :
    Linked (Function.update thresholds context.id index) context parents :=
  h.congr fun _ hlt => Function.update_of_ne (Nat.ne_of_lt hlt) _ _

theorem Reaches.le (h : Reaches alive context parents id) (hlinked : Linked thresholds context parents) :
    id ≤ context.id := by
  induction parents generalizing context with
  | nil => exact Nat.le_of_eq h.symm
  | cons parent parents ih =>
    match h with
    | .inl heq => exact Nat.le_of_eq heq.symm
    | .inr ⟨_, h⟩ => exact Nat.le_trans (ih h hlinked.2.2.2) (Nat.le_of_lt hlinked.2.2.1)

/-- Behind a context every threshold is at or below where the context starts. -/
theorem Reaches.threshold_le (h : Reaches alive context parents id)
    (hlinked : Linked thresholds context parents) (hne : context.id ≠ id) :
    thresholds id ≤ context.firstIndex := by
  induction parents generalizing context with
  | nil => exact absurd h hne
  | cons parent parents ih =>
    have ⟨hthreshold, hfirst, _, hrest⟩ := hlinked
    have ⟨_, h⟩ := h.resolve_left hne
    by_cases hparent : parent.id = id
    · exact Nat.le_of_eq (hparent ▸ hthreshold)
    · exact Nat.le_trans (ih h hrest hparent) hfirst

/-- What the walk does to the threshold of each context: it lowers those it visits to
the target, and those it leaves alone on the way are at or below the target already. -/
theorem canceledParentContext_threshold (alive : Nat → Bool) (hlinked : Linked thresholds context parents)
    (hindex : index ≤ thresholds context.id) (id : Nat) :
    let thresholds' := (canceledParentContext alive index context parents thresholds).1
    thresholds' id = thresholds id ∧ (Reaches alive context parents id → thresholds id ≤ index) ∨
      thresholds' id = index ∧ index ≤ thresholds id ∧ Reaches alive context parents id := by
  induction parents generalizing context thresholds with
  | nil =>
    by_cases hid : context.id = id
    · subst hid
      exact .inr ⟨Function.update_self _ _ _, hindex, rfl⟩
    · exact .inl ⟨Function.update_of_ne (Ne.symm hid) _ _, fun h => absurd h hid⟩
  | cons parent parents ih =>
    have ⟨hthreshold, hfirst, hlt, hrest⟩ := hlinked
    simp only [canceledParentContext]
    have hself : Function.update thresholds context.id index context.id = index :=
      Function.update_self _ _ _
    have hother : ∀ {j}, context.id ≠ j →
        Function.update thresholds context.id index j = thresholds j :=
      fun h => Function.update_of_ne (Ne.symm h) _ _
    by_cases hstop : context.firstIndex ≤ index
    · rw [if_pos hstop]
      by_cases hid : context.id = id
      · subst hid
        exact .inr ⟨hself, hindex, .inl rfl⟩
      · refine .inl ⟨hother hid, fun h => ?_⟩
        exact Nat.le_trans (h.threshold_le hlinked hid) hstop
    · rw [if_neg hstop]
      by_cases halive : alive parent.id = true
      · rw [if_pos halive]
        have hparent := hother (Nat.ne_of_gt hlt)
        have hwalk := ih (hrest.congr fun j hj => hother (Nat.ne_of_gt (Nat.lt_trans hj hlt)))
          (by rw [hparent, hthreshold]; omega)
        by_cases hid : context.id = id
        · subst hid
          refine .inr ⟨?_, hindex, .inl rfl⟩
          match hwalk with
          | .inl ⟨heq, _⟩ => exact heq.trans hself
          | .inr ⟨heq, _⟩ => exact heq
        · rw [hother hid] at hwalk
          refine hwalk.imp (And.imp_right fun h hreach => ?_) fun ⟨heq, hle, hreach⟩ =>
            ⟨heq, hle, .inr ⟨halive, hreach⟩⟩
          exact h (hreach.resolve_left hid).2
      · rw [if_neg halive]
        by_cases hid : context.id = id
        · subst hid
          exact .inr ⟨hself, hindex, .inl rfl⟩
        · refine .inl ⟨hother hid, fun h => ?_⟩
          exact absurd (h.resolve_left hid).1 halive

/-- The parent found is where the new context starts. -/
theorem canceledParentContext_linked (hlinked : Linked thresholds context parents)
    {fresh : Nat} (hfresh : context.id < fresh) :
    let found := canceledParentContext alive index context parents thresholds
    Linked found.1 ⟨fresh, index⟩ found.2 := by
  induction parents generalizing context thresholds with
  | nil =>
    simp only [canceledParentContext]
    split
    case isTrue hstop => exact ⟨Function.update_self _ _ _, hstop, hfresh, trivial⟩
    case isFalse => trivial
  | cons parent parents ih =>
    have ⟨_, _, hlt, hrest⟩ := hlinked
    simp only [canceledParentContext]
    split
    case isTrue hstop => exact ⟨Function.update_self _ _ _, hstop, hfresh, hlinked.update⟩
    case isFalse =>
      split
      case isTrue =>
        refine ih (hrest.congr fun j hj => ?_) (Nat.lt_trans hlt hfresh)
        exact Function.update_of_ne (Nat.ne_of_lt (Nat.lt_trans hj hlt)) _ _
      case isFalse => trivial

/-! ### Steps and runs -/

structure Sound (s : Cancellation) : Prop where
  current : s.thresholds s.current.id = uncanceled
  fresh : s.current.id < s.created
  unused : ∀ id, s.created ≤ id → s.thresholds id = uncanceled
  linked : Linked s.thresholds s.current s.parents

variable {s} {s' : Cancellation}

theorem sound_new (root tip : Nat) (canonical : List Nat) : (new root tip canonical).Sound where
  current := rfl
  fresh := Nat.one_pos
  unused _ _ := rfl
  linked := trivial

theorem Sound.rollback (h : s.Sound) {target : Nat} (htarget : target ≤ uncanceled) :
    (s.rollback target).Sound := by
  have hunused : ∀ id, s.created ≤ id → (s.rollback target).thresholds id = uncanceled := by
    intro id hid
    match canceledParentContext_threshold s.alive h.linked (h.current ▸ htarget) id with
    | .inl ⟨heq, _⟩ => exact heq.trans (h.unused id hid)
    | .inr ⟨_, _, hreach⟩ =>
      have := hreach.le h.linked
      have := h.fresh
      omega
  constructor
  case current => exact hunused s.created (Nat.le_refl _)
  case fresh => exact Nat.lt_succ_self _
  case unused => exact fun id hid => hunused id (Nat.le_of_succ_le hid)
  case linked => exact canceledParentContext_linked h.linked h.fresh

theorem Sound.step {e : CancellationEvent} (h : s.Sound) (hstep : s.step e = some s') : s'.Sound := by
  match e with
  | .schedule index =>
    simp only [Cancellation.step] at hstep
    split at hstep <;> cases hstep
    exact ⟨h.current, h.fresh, h.unused, h.linked⟩
  | .drop n =>
    simp only [Cancellation.step] at hstep
    split at hstep <;> cases hstep
    exact ⟨h.current, h.fresh, h.unused, h.linked⟩
  | .rollback target =>
    simp only [Cancellation.step] at hstep
    split at hstep <;> cases hstep
    case isTrue hguard => exact h.rollback hguard.2

/-- A rollback keeps cancellation exact if and only if the chain is unbroken down to
the batches it has to cancel. -/
theorem Exact.rollback_iff (h : s.Exact) (hsound : s.Sound) {target : Nat} (htarget : target ≤ uncanceled)
    : (s.rollback target).Exact ↔ s.Unbroken (.rollback target) := by
  have hwalk := canceledParentContext_threshold s.alive hsound.linked
    (hsound.current ▸ htarget)
  have hmem : ∀ h' ∈ (s.rollback target).handles, ∃ h ∈ s.handles,
      { h with since := target :: h.since } = h' := fun h' => List.mem_map.mp
  have hiff : ∀ b : BatchHandle, (∃ t ∈ target :: b.since, t < b.index) ↔
      target < b.index ∨ ∃ t ∈ b.since, t < b.index := by simp
  constructor
  · intro hexact b hb hlt hkept
    have hb' : { b with since := target :: b.since } ∈ (s.rollback target).handles :=
      List.mem_map_of_mem hb
    have hcanceled : (s.rollback target).thresholds b.context < b.index :=
      (hexact _ hb').mpr ⟨target, List.mem_cons_self, hlt⟩
    match hwalk b.context with
    | .inl ⟨heq, _⟩ =>
      change (s.rollback target).thresholds b.context = s.thresholds b.context at heq
      rw [heq] at hcanceled
      exact absurd hcanceled hkept
    | .inr ⟨_, _, hreach⟩ => exact hreach
  · intro hunbroken b' hb'
    have ⟨b, hb, heq⟩ := hmem b' hb'
    subst heq
    have hbefore : s.thresholds b.context < b.index ↔ ∃ t ∈ b.since, t < b.index := h b hb
    change (s.rollback target).thresholds b.context < b.index ↔ _
    rw [hiff, ← hbefore]
    match hwalk b.context with
    | .inl ⟨heq, hpassed⟩ =>
      change (s.rollback target).thresholds b.context = s.thresholds b.context at heq
      rw [heq]
      refine ⟨.inr, fun hor => hor.elim (fun hlt => ?_) id⟩
      by_contra hkept
      have := hpassed (hunbroken b hb hlt hkept)
      omega
    | .inr ⟨heq, hle, _⟩ =>
      change (s.rollback target).thresholds b.context = target at heq
      rw [heq]
      omega

theorem Exact.step_iff {e : CancellationEvent} (h : s.Exact) (hsound : s.Sound)
    (hstep : s.step e = some s') : s'.Exact ↔ s.Unbroken e := by
  match e with
  | .schedule index =>
    simp only [Cancellation.step] at hstep
    split at hstep <;> cases hstep
    case isTrue hguard =>
      refine iff_of_true (fun b hb => ?_) trivial
      match List.mem_append.mp hb with
      | .inl hb => exact h b hb
      | .inr hb =>
        rw [List.mem_singleton] at hb
        subst hb
        have hcurrent := hsound.current
        refine iff_of_false (fun hlt => ?_) (by simp)
        change s.thresholds s.current.id < index at hlt
        omega
  | .drop n =>
    simp only [Cancellation.step] at hstep
    split at hstep <;> cases hstep
    exact iff_of_true (fun b hb => h b (List.mem_of_mem_eraseIdx hb)) trivial
  | .rollback target =>
    simp only [Cancellation.step] at hstep
    split at hstep <;> cases hstep
    case isTrue hguard => exact h.rollback_iff hsound hguard.2

/-- Over a whole run, cancellation is exact in every state reached if and only if no
rollback finds its chain broken. -/
theorem canceled_exact_iff {root tip : Nat} {canonical : List Nat} {events : List CancellationEvent}
    {s : Cancellation} (hrun : Runs.run step (new root tip canonical) events = some s) :
    (∀ before after m, events = before ++ after →
      Runs.run step (new root tip canonical) before = some m → m.Exact) ↔
    Runs.Along step Unbroken (new root tip canonical) events :=
  Runs.forall_before_iff_along Sound.step Exact.step_iff nofun (sound_new root tip canonical) hrun

/-- Batch 4 is scheduled under a context of its own, rolled back and dropped, and the
rollback to 1 then no longer finds the context of batch 2. -/
def freedBetween : List CancellationEvent :=
  [.schedule 1, .schedule 2, .schedule 3, .rollback 2, .schedule 4, .rollback 2, .drop 3, .rollback 1]

theorem canceled_exact_freedBetween :
    ∃ s, Runs.run step (new 0 0 []) (freedBetween.take 7) = some s ∧ s.Exact := by
  have ⟨s, hrun⟩ : ∃ s, Runs.run step (new 0 0 []) (freedBetween.take 7) = some s :=
    Option.isSome_iff_exists.mp (by decide +kernel)
  have halong : Runs.Along step Unbroken (new 0 0 []) (freedBetween.take 7) := by decide +kernel
  exact ⟨s, hrun, (canceled_exact_iff hrun).mpr halong _ [] s (List.append_nil _).symm hrun⟩

/-- Batch 2 is still held and not canceled after the rollback to 1. -/
theorem canceled_not_exact :
    ∃ s, Runs.run step (new 0 0 []) freedBetween = some s ∧
      ∃ h ∈ s.handles, h.index = 2 ∧ 1 ∈ h.since ∧ ¬s.canceled h := by
  have h : ((Runs.run step (new 0 0 []) freedBetween).map fun s =>
      decide (∃ h ∈ s.handles, h.index = 2 ∧ 1 ∈ h.since ∧ ¬s.canceled h)) = some true := by
    decide +kernel
  have ⟨s, hrun, hs⟩ := Option.map_eq_some_iff.mp h
  exact ⟨s, hrun, of_decide_eq_true hs⟩

end Cancellation
end Vprogs.Scheduler
