import Vprogs.Runs
import Mathlib.Algebra.Group.Nat.Defs

/-!
The handshake between `pause` and the pruning thread, one step per access of a
shared cell. The worker announces its range in the cursor before it reads the
ceiling a second time, and `pause` stores the ceiling before it reads the cursor.
A worker without work sleeps until `notify_one` leaves it a permit.
-/
namespace Vprogs.Scheduler

/-- `u64::MAX`, the ceiling of a worker that is not paused. -/
def unconstrained : Nat := 2 ^ 64 - 1

/-- Where the pruning thread is in its loop. -/
inductive WorkerPoint where
  | start
  | rooted (lower : Nat)
  | thresholded (lower threshold : Nat)
  | ranged (lower upper : Nat)
  | announced (lower upper prev : Nat)
  | aborting (lower upper prev : Nat)
  /-- In `prune`, before the root advances. -/
  | pruning (lower upper : Nat)
  /-- In `prune`, with the deletions still to commit. -/
  | deleting (lower upper : Nat)
  | waiting
  deriving DecidableEq, Repr

/-- Where the calling thread is in `pause`, `unpause` or `set_threshold`. -/
inductive CallerPoint where
  | idle
  | pausing (ceiling : Nat)
  | failing (ceiling : Nat)
  | notifying
  deriving DecidableEq, Repr

structure PruningWorker where
  pruningThreshold : Nat
  pauseCeiling : Nat
  pruningCursor : Nat
  /-- Index of the oldest surviving batch. -/
  root : Nat
  permit : Bool
  worker : WorkerPoint
  caller : CallerPoint
  /-- Ceilings of the pauses that returned `true`, until `unpause`; not in the source. -/
  held : List Nat
  /-- Upper bounds of the passes executed so far; not in the source. -/
  executed : List Nat
  deriving DecidableEq, Repr

inductive PruningEvent where
  /-- The next access of the pruning thread. -/
  | worker
  | pause (ceiling : Nat)
  | unpause
  | setThreshold (threshold : Nat)
  /-- The next access of the call in progress. -/
  | caller
  deriving DecidableEq, Repr

namespace PruningWorker

/-- `PruningWorker::new`; `executed` lists the passes of earlier sessions. -/
def new (root : Nat) (executed : List Nat) : PruningWorker where
  pruningThreshold := root
  pauseCeiling := unconstrained
  pruningCursor := root - 1
  root := root
  permit := false
  worker := .start
  caller := .idle
  held := []
  executed := executed

variable (s : PruningWorker)

def stepWorker : Option PruningWorker :=
  match s.worker with
  | .start => some { s with worker := .rooted s.root }
  | .rooted lower => some { s with worker := .thresholded lower s.pruningThreshold }
  | .thresholded lower threshold =>
    let upper := min threshold s.pauseCeiling - 1
    if lower ≤ upper ∧ 0 < lower then some { s with worker := .ranged lower upper }
    else some { s with worker := .waiting }
  | .ranged lower upper =>
    some { s with pruningCursor := upper, worker := .announced lower upper s.pruningCursor }
  | .announced lower upper prev =>
    if s.pauseCeiling ≤ upper then some { s with worker := .aborting lower upper prev }
    else some { s with worker := .pruning lower upper }
  | .aborting _ _ prev => some { s with pruningCursor := prev, worker := .start }
  | .pruning lower upper => some { s with root := upper + 1, worker := .deleting lower upper }
  | .deleting _ upper => some { s with executed := upper :: s.executed, worker := .start }
  | .waiting => if s.permit then some { s with permit := false, worker := .start } else none

def stepCaller : Option PruningWorker :=
  match s.caller with
  | .idle => none
  | .pausing ceiling =>
    if s.pruningCursor ≤ ceiling then some { s with caller := .idle, held := ceiling :: s.held }
    else some { s with caller := .failing ceiling }
  | .failing _ => some { s with pauseCeiling := unconstrained, caller := .idle }
  | .notifying => some { s with permit := true, caller := .idle }

/-- A call starts only when the thread is in none; its first access is part of the event. -/
def step : PruningEvent → Option PruningWorker
  | .worker => s.stepWorker
  | .caller => s.stepCaller
  | .pause ceiling =>
    if s.caller = .idle ∧ ceiling ≤ unconstrained then
      some { s with pauseCeiling := ceiling, caller := .pausing ceiling }
    else none
  | .unpause =>
    if s.caller = .idle then
      some { s with pauseCeiling := unconstrained, held := [], caller := .notifying }
    else none
  | .setThreshold threshold =>
    if s.caller = .idle ∧ threshold ≤ unconstrained then
      some { s with
        pruningThreshold := max s.pruningThreshold threshold
        caller := if s.pruningThreshold < threshold then .notifying else .idle }
    else none

/-- A pass with an upper bound above `c` is executing. -/
def Executing (c : Nat) : Prop :=
  match s.worker with
  | .pruning _ upper | .deleting _ upper => c < upper
  | _ => False

instance (c : Nat) : Decidable (s.Executing c) := by
  unfold Executing
  split <;> infer_instance

/-- Left alone, the worker comes to execute a pass above `c`. -/
def Later (c : Nat) : Prop :=
  ∃ n s', Runs.run step s (List.replicate n .worker) = some s' ∧ s'.Executing c

/-- A pass above `c` has executed, is executing, or goes on to execute. -/
def GoesOn (c : Nat) : Prop :=
  (∃ upper ∈ s.executed, c < upper) ∨ s.Executing c ∨ s.Later c

/-- No pass is executing above the ceiling of a pause in force. -/
def Kept : Prop :=
  ∀ c ∈ s.held, ¬s.Executing c

/-- The worker sleeps and no wake-up is on its way. -/
def Asleep : Prop :=
  s.worker = .waiting ∧ s.permit = false

instance : Decidable s.Asleep := inferInstanceAs (Decidable (_ ∧ _))

/-- `pause` is called only when the last successful pause has been lifted. -/
def Unnested : PruningEvent → Prop
  | .pause _ => s.held = []
  | _ => True

instance (e : PruningEvent) : Decidable (s.Unnested e) := by
  unfold Unnested
  split <;> infer_instance

/-! ### What the program points say about the cells -/

/-- The cursor as it stands once a pass that is only announced has been taken back. -/
def settled : Nat :=
  match s.worker with
  | .announced _ _ prev | .aborting _ _ prev => prev
  | _ => s.pruningCursor

/-- A range in hand starts at the root and stays below the threshold; a threshold in
hand is the current one unless a wake-up is on its way. -/
def Ranged : Prop :=
  match s.worker with
  | .start | .waiting => True
  | .rooted lower => lower = s.root
  | .thresholded lower threshold => lower = s.root ∧ threshold ≤ s.pruningThreshold ∧
      (threshold = s.pruningThreshold ∨ s.permit = true ∨ s.caller = .notifying)
  | .ranged lower upper => lower = s.root ∧ 0 < lower ∧ lower ≤ upper ∧ upper < s.pruningThreshold
  | .announced lower upper _ | .aborting lower upper _ | .pruning lower upper =>
    lower = s.root ∧ 0 < lower ∧ lower ≤ upper ∧ upper < s.pruningThreshold ∧
      s.pruningCursor = upper
  | .deleting _ upper =>
    s.root = upper + 1 ∧ upper < s.pruningThreshold ∧ s.pruningCursor = upper

/-- What lets the worker prune above `c` as soon as the ceiling is lifted. -/
structure Eligible (c : Nat) : Prop where
  pos : 0 < s.root
  below : s.root < s.pruningThreshold
  above : c + 1 < s.pruningThreshold

structure Sound : Prop where
  threshold_le : s.pruningThreshold ≤ unconstrained
  ranged : s.Ranged
  /-- Passes go upwards, and the settled cursor is the last one. -/
  executed : ∀ upper ∈ s.executed, upper < s.root ∧ upper ≤ s.settled
  settled : s.settled = 0 ∨ s.settled ∈ s.executed ∨ ∀ c < s.settled, s.Executing c
  failing : ∀ c, s.caller = .failing c →
    (∃ upper ∈ s.executed, c < upper) ∨ s.Executing c ∨ s.Eligible c

/-- The root a session starts from was left there by the last pass of an earlier one,
or nothing has been pruned yet. -/
structure Resumed (root : Nat) (executed : List Nat) : Prop where
  root_le : root ≤ unconstrained
  below : ∀ upper ∈ executed, upper < root
  last : root ≤ 1 ∨ root - 1 ∈ executed

theorem sound_new {root : Nat} {executed : List Nat} (h : Resumed root executed) :
    (new root executed).Sound where
  threshold_le := h.root_le
  ranged := trivial
  executed upper hu := ⟨h.below upper hu, Nat.le_sub_one_of_lt (h.below upper hu)⟩
  settled := h.last.imp (fun h => Nat.sub_eq_zero_of_le h) .inl
  failing _ hc := by cases hc

variable {s} {s' : PruningWorker}

theorem Sound.congr (h : s.Sound) (hthreshold : s'.pruningThreshold = s.pruningThreshold)
    (hroot : s'.root = s.root) (hexecuted : s'.executed = s.executed)
    (hcaller : s'.caller = s.caller) (hranged : s'.Ranged) (hsettled : s'.settled = s.settled)
    (hexecuting : ∀ c, s.Executing c → s'.Executing c) : s'.Sound where
  threshold_le := hthreshold ▸ h.threshold_le
  ranged := hranged
  executed upper hu := by
    rw [hroot, hsettled]
    exact h.executed upper (hexecuted ▸ hu)
  settled := by
    rw [hsettled, hexecuted]
    exact h.settled.imp_right (Or.imp_right fun hall c hc => hexecuting c (hall c hc))
  failing c hc := by
    rw [hexecuted]
    refine (h.failing c (hcaller ▸ hc)).imp_right (Or.imp (hexecuting c) fun he => ?_)
    exact ⟨hroot ▸ he.pos, by rw [hroot, hthreshold]; exact he.below, hthreshold ▸ he.above⟩

/-- The ceiling lets an announced pass through, and its bound becomes the settled one. -/
theorem Sound.prune {lower upper prev : Nat} (h : s.Sound) (hw : s.worker = .announced lower upper prev) :
    { s with worker := .pruning lower upper }.Sound := by
  have hranged := h.ranged
  simp only [Ranged, hw] at hranged
  have ⟨hlower, _, hle, _, hcursor⟩ := hranged
  constructor
  case threshold_le => exact h.threshold_le
  case ranged => exact hranged
  case executed =>
    intro v hv
    have hroot := (h.executed v hv).1
    refine ⟨hroot, ?_⟩
    change v ≤ s.pruningCursor
    omega
  case settled =>
    refine .inr (.inr fun c hc => ?_)
    change c < s.pruningCursor at hc
    exact hcursor ▸ hc
  case failing =>
    intro c hc
    match h.failing c hc with
    | .inl hdone => exact .inl hdone
    | .inr (.inl hexecuting) => simp [Executing, hw] at hexecuting
    | .inr (.inr he) => exact .inr (.inr ⟨he.pos, he.below, he.above⟩)

/-- The root advances past the pass. A bound at or below a failing ceiling leaves the
worker with more to prune. -/
theorem Sound.advance {lower upper : Nat} (h : s.Sound) (hw : s.worker = .pruning lower upper) :
    { s with root := upper + 1, worker := .deleting lower upper }.Sound := by
  have hranged := h.ranged
  simp only [Ranged, hw] at hranged
  have ⟨hlower, _, hle, hlt, hcursor⟩ := hranged
  have hsettled : s.settled = s.pruningCursor := by simp [PruningWorker.settled, hw]
  constructor
  case threshold_le => exact h.threshold_le
  case ranged => exact ⟨rfl, hlt, hcursor⟩
  case executed =>
    intro v hv
    have ⟨hroot, hlast⟩ := h.executed v hv
    refine ⟨?_, hsettled ▸ hlast⟩
    change v < upper + 1
    omega
  case settled =>
    refine .inr (.inr fun c hc => ?_)
    change c < s.pruningCursor at hc
    exact hcursor ▸ hc
  case failing =>
    intro c hc
    match h.failing c hc with
    | .inl hdone => exact .inl hdone
    | .inr (.inl hexecuting) =>
      simp only [Executing, hw] at hexecuting
      exact .inr (.inl hexecuting)
    | .inr (.inr he) =>
      by_cases habove : c < upper
      · exact .inr (.inl habove)
      · have := he.above
        refine .inr (.inr ⟨Nat.succ_pos upper, ?_, he.above⟩)
        change upper + 1 < s.pruningThreshold
        omega

theorem Sound.finish {lower upper : Nat} (h : s.Sound) (hw : s.worker = .deleting lower upper) :
    { s with executed := upper :: s.executed, worker := .start }.Sound := by
  have hranged := h.ranged
  simp only [Ranged, hw] at hranged
  have ⟨hroot, _, hcursor⟩ := hranged
  constructor
  case threshold_le => exact h.threshold_le
  case ranged => trivial
  case executed =>
    intro v hv
    have hv : v = upper ∨ v ∈ s.executed := List.mem_cons.mp hv
    have hle : v ≤ upper := by
      match hv with
      | .inl hv => exact Nat.le_of_eq hv
      | .inr hv =>
        have := (h.executed v hv).1
        omega
    exact ⟨by change v < s.root; omega, by change v ≤ s.pruningCursor; omega⟩
  case settled => exact .inr (.inl (hcursor ▸ List.mem_cons_self))
  case failing =>
    intro c hc
    match h.failing c hc with
    | .inl ⟨v, hv, habove⟩ => exact .inl ⟨v, List.mem_cons_of_mem _ hv, habove⟩
    | .inr (.inl hexecuting) =>
      simp only [Executing, hw] at hexecuting
      exact .inl ⟨upper, List.mem_cons_self, hexecuting⟩
    | .inr (.inr he) => exact .inr (.inr ⟨he.pos, he.below, he.above⟩)

/-- A step between passes moves neither the root nor the settled cursor. -/
theorem Sound.between (h : s.Sound) {point : WorkerPoint} {cursor : Nat} {permit : Bool}
    (hidle : ∀ c, ¬s.Executing c)
    (hranged : { s with pruningCursor := cursor, permit := permit, worker := point }.Ranged)
    (hsettled :
      { s with pruningCursor := cursor, permit := permit, worker := point }.settled = s.settled) :
    { s with pruningCursor := cursor, permit := permit, worker := point }.Sound :=
  h.congr rfl rfl rfl rfl hranged hsettled fun c hc => absurd hc (hidle c)

theorem Sound.stepWorker (h : s.Sound) (hstep : s.stepWorker = some s') : s'.Sound := by
  have hranged := h.ranged
  match hw : s.worker with
  | .start =>
    simp only [PruningWorker.stepWorker, hw, Option.some.injEq] at hstep
    subst hstep
    exact h.between (by simp [Executing, hw]) rfl (by simp [PruningWorker.settled, hw])
  | .rooted lower =>
    simp only [PruningWorker.stepWorker, hw, Option.some.injEq] at hstep
    simp only [Ranged, hw] at hranged
    subst hstep
    exact h.between (by simp [Executing, hw]) ⟨hranged, Nat.le_refl _, .inl rfl⟩
      (by simp [PruningWorker.settled, hw])
  | .thresholded lower threshold =>
    simp only [Ranged, hw] at hranged
    have ⟨hlower, hthreshold, _⟩ := hranged
    simp only [PruningWorker.stepWorker, hw] at hstep
    split at hstep <;> cases hstep
    case isTrue hwork =>
      have ⟨hle, hpos⟩ := hwork
      have hlt : min threshold s.pauseCeiling - 1 < s.pruningThreshold := by omega
      exact h.between (by simp [Executing, hw]) ⟨hlower, hpos, hle, hlt⟩
        (by simp [PruningWorker.settled, hw])
    case isFalse =>
      exact h.between (by simp [Executing, hw]) trivial (by simp [PruningWorker.settled, hw])
  | .ranged lower upper =>
    simp only [PruningWorker.stepWorker, hw, Option.some.injEq] at hstep
    simp only [Ranged, hw] at hranged
    have ⟨hlower, hpos, hle, hlt⟩ := hranged
    subst hstep
    exact h.between (by simp [Executing, hw]) ⟨hlower, hpos, hle, hlt, rfl⟩
      (by simp [PruningWorker.settled, hw])
  | .announced lower upper prev =>
    simp only [Ranged, hw] at hranged
    simp only [PruningWorker.stepWorker, hw] at hstep
    split at hstep <;> cases hstep
    case isTrue =>
      exact h.between (by simp [Executing, hw]) hranged (by simp [PruningWorker.settled, hw])
    case isFalse => exact h.prune hw
  | .aborting lower upper prev =>
    simp only [PruningWorker.stepWorker, hw, Option.some.injEq] at hstep
    subst hstep
    exact h.between (by simp [Executing, hw]) trivial (by simp [PruningWorker.settled, hw])
  | .pruning lower upper =>
    simp only [PruningWorker.stepWorker, hw, Option.some.injEq] at hstep
    exact hstep ▸ h.advance hw
  | .deleting lower upper =>
    simp only [PruningWorker.stepWorker, hw, Option.some.injEq] at hstep
    exact hstep ▸ h.finish hw
  | .waiting =>
    simp only [PruningWorker.stepWorker, hw] at hstep
    split at hstep <;> cases hstep
    exact h.between (by simp [Executing, hw]) trivial (by simp [PruningWorker.settled, hw])

/-! ### The calling thread -/

/-- A cursor above `c` belongs to a pass that is past the handshake, or to one that is
announced and may still be taken back. -/
theorem Sound.of_lt_cursor {c : Nat} (h : s.Sound) (hc : c < s.pruningCursor) :
    (∃ upper ∈ s.executed, c < upper) ∨ s.Executing c ∨ s.Eligible c := by
  have hranged := h.ranged
  by_cases hsettled : s.settled = s.pruningCursor
  · match hsettled ▸ h.settled with
    | .inl hzero => omega
    | .inr (.inl hmem) => exact .inl ⟨_, hmem, hc⟩
    | .inr (.inr hall) => exact .inr (.inl (hall c hc))
  · have heligible : ∀ {lower upper prev : Nat},
        s.worker = .announced lower upper prev ∨ s.worker = .aborting lower upper prev →
          s.Eligible c := by
      intro lower upper prev hw
      have ⟨hlower, hpos, hle, hlt, hcursor⟩ : lower = s.root ∧ 0 < lower ∧ lower ≤ upper ∧
          upper < s.pruningThreshold ∧ s.pruningCursor = upper := by
        match hw with
        | .inl hw => simpa only [Ranged, hw] using hranged
        | .inr hw => simpa only [Ranged, hw] using hranged
      exact ⟨by omega, by omega, by omega⟩
    match hw : s.worker with
    | .announced lower upper prev => exact .inr (.inr (heligible (.inl hw)))
    | .aborting lower upper prev => exact .inr (.inr (heligible (.inr hw)))
    | .start | .rooted _ | .thresholded _ _ | .ranged _ _ | .pruning _ _ | .deleting _ _
    | .waiting => simp [PruningWorker.settled, hw] at hsettled

/-- The calling thread changes nothing that a range in hand depends on, and a threshold
that it raises comes with a wake-up. -/
theorem Ranged.call (h : s.Ranged) {threshold ceiling : Nat} {permit : Bool} {caller : CallerPoint}
    {held : List Nat} (hle : s.pruningThreshold ≤ threshold)
    (hraised : threshold = s.pruningThreshold ∨ caller = .notifying)
    (hpermit : s.permit = true ∨ s.caller = .notifying → permit = true ∨ caller = .notifying) :
    { s with
      pruningThreshold := threshold
      pauseCeiling := ceiling
      permit := permit
      caller := caller
      held := held }.Ranged := by
  unfold Ranged at h ⊢
  match hw : s.worker with
  | .start | .waiting => trivial
  | .rooted _ => simpa only [hw] using h
  | .thresholded lower t =>
    simp only [hw] at h ⊢
    have ⟨hlower, ht, hcurrent⟩ := h
    refine ⟨hlower, Nat.le_trans ht hle, ?_⟩
    match hcurrent, hraised with
    | .inl heq, .inl hsame => exact .inl (heq.trans hsame.symm)
    | _, .inr hnotifying => exact .inr (.inr hnotifying)
    | .inr hwake, _ => exact .inr (hpermit hwake)
  | .ranged lower upper =>
    simp only [hw] at h ⊢
    exact ⟨h.1, h.2.1, h.2.2.1, Nat.lt_of_lt_of_le h.2.2.2 hle⟩
  | .announced lower upper _ | .aborting lower upper _ | .pruning lower upper =>
    simp only [hw] at h ⊢
    exact ⟨h.1, h.2.1, h.2.2.1, Nat.lt_of_lt_of_le h.2.2.2.1 hle, h.2.2.2.2⟩
  | .deleting _ upper =>
    simp only [hw] at h ⊢
    exact ⟨h.1, Nat.lt_of_lt_of_le h.2.1 hle, h.2.2⟩

theorem Sound.call (h : s.Sound) {threshold ceiling : Nat} {permit : Bool} {caller : CallerPoint}
    {held : List Nat} (hle : s.pruningThreshold ≤ threshold) (hmax : threshold ≤ unconstrained)
    (hraised : threshold = s.pruningThreshold ∨ caller = .notifying)
    (hpermit : s.permit = true ∨ s.caller = .notifying → permit = true ∨ caller = .notifying)
    (hfailing : ∀ c, caller = .failing c → c < s.pruningCursor ∧ threshold = s.pruningThreshold) :
    { s with
      pruningThreshold := threshold
      pauseCeiling := ceiling
      permit := permit
      caller := caller
      held := held }.Sound where
  threshold_le := hmax
  ranged := h.ranged.call hle hraised hpermit
  executed := h.executed
  settled := h.settled
  failing c hc := by
    have ⟨hcursor, hsame⟩ := hfailing c hc
    refine (h.of_lt_cursor hcursor).imp_right (Or.imp_right fun he => ?_)
    exact ⟨he.pos, hsame ▸ he.below, hsame ▸ he.above⟩

theorem Sound.step {e : PruningEvent} (h : s.Sound) (hstep : s.step e = some s') : s'.Sound := by
  have hself := Nat.le_refl s.pruningThreshold
  match e with
  | .worker => exact h.stepWorker hstep
  | .pause ceiling =>
    simp only [PruningWorker.step] at hstep
    split at hstep <;> cases hstep
    case isTrue hidle =>
      exact h.call hself h.threshold_le (.inl rfl) (Or.imp_right fun hn => by simp [hidle.1] at hn)
        nofun
  | .unpause =>
    simp only [PruningWorker.step] at hstep
    split at hstep <;> cases hstep
    exact h.call hself h.threshold_le (.inl rfl) (fun _ => .inr rfl) nofun
  | .setThreshold threshold =>
    simp only [PruningWorker.step] at hstep
    split at hstep <;> cases hstep
    case isTrue hcall =>
      have ⟨hidle, hmax⟩ := hcall
      refine h.call (Nat.le_max_left _ _) (Nat.max_le.mpr ⟨h.threshold_le, hmax⟩) ?_ ?_ ?_
      · by_cases hraised : s.pruningThreshold < threshold
        · exact .inr (if_pos hraised)
        · exact .inl (Nat.max_eq_left (Nat.le_of_not_lt hraised))
      · exact Or.imp_right fun hn => by simp [hidle] at hn
      · intro c hc
        split at hc <;> cases hc
  | .caller =>
    simp only [PruningWorker.step, stepCaller] at hstep
    match hc : s.caller with
    | .idle => simp [hc] at hstep
    | .pausing ceiling =>
      have hquiet : s.permit = true ∨ s.caller = .notifying → s.permit = true :=
        fun hor => hor.resolve_right (by simp [hc])
      simp only [hc] at hstep
      split at hstep <;> cases hstep
      case isTrue =>
        exact h.call hself h.threshold_le (.inl rfl) (fun hor => .inl (hquiet hor)) nofun
      case isFalse hlt =>
        refine h.call hself h.threshold_le (.inl rfl) (fun hor => .inl (hquiet hor)) ?_
        rintro c ⟨⟩
        exact ⟨Nat.lt_of_not_le hlt, rfl⟩
    | .failing ceiling =>
      simp only [hc, Option.some.injEq] at hstep
      subst hstep
      exact h.call hself h.threshold_le (.inl rfl)
        (fun hor => .inl (hor.resolve_right (by simp [hc]))) nofun
    | .notifying =>
      simp only [hc, Option.some.injEq] at hstep
      subst hstep
      exact h.call hself h.threshold_le (.inl rfl) (fun _ => .inl rfl) nofun

end PruningWorker
end Vprogs.Scheduler
