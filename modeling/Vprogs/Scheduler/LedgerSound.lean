import Vprogs.Scheduler.Ledger

/-!
What holds of the books between the steps of the threads, for batches whose metadata
is given by their index: checkpoints carry the metadata of their index, and every
batch of the branch is pending, on disk, or behind the pruning thread.
-/
namespace Vprogs.Scheduler

open Canonical

namespace Books

variable {M : Type} [Inhabited M] {m : Nat → M} {b b' : Books M}

/-- How far metadata has been deleted; an announced pass may still abort. -/
def reach (b : Books M) : Nat :=
  match b.pruner with
  | .announced _ _ prev => prev
  | _ => b.cursor

/-- The metadata is on disk, or the pruning thread has passed it. -/
def Kept (b : Books M) (t : Nat) : Prop := b.metadata.get t ≠ none ∨ t ≤ b.reach

/-- The cursor against the root and the range of the pass. -/
def Paced (b : Books M) : Prop :=
  match b.pruner with
  | .idle => b.cursor ≤ b.root.index
  | .ranged _ upper => b.cursor ≤ b.root.index ∧ b.cursor ≤ upper ∧ 0 < upper
  | .announced _ upper prev => prev ≤ b.root.index ∧ prev ≤ upper ∧ b.cursor = upper ∧ 0 < upper
  | .pruning _ upper => b.cursor = upper ∧ 0 < upper
  | .deleting _ upper _ => b.cursor = upper ∧ 0 < upper ∧ b.root.index = upper + 1

/-- A block of the branch below the last processed one, or genesis. -/
def Aimed (b : Books M) (t : Nat) : Prop := t < b.lastProcessed.index ∧ (t = 0 ∨ t ∈ b.line)

/-- The ceiling stands at the target of a rollback, and once the cursor has been read no
pass deletes beyond it. -/
def Phased (b : Books M) : Prop :=
  match b.phase with
  | .idle => b.ceiling = none
  | .paused t => b.ceiling = some t ∧ b.Aimed t
  | .conflicted => True
  | .cleared t => b.ceiling = some t ∧ b.reach ≤ t ∧ b.Aimed t
  | .found target => b.ceiling = some target.index ∧ b.reach ≤ target.index ∧ b.Aimed target.index
  | .rolling target => b.ceiling = some target.index ∧ b.reach ≤ target.index ∧ b.lastProcessed = target
  | .executed target => b.lastProcessed = target

structure Sound (m : Nat → M) (b : Books M) : Prop where
  paced : b.Paced
  phased : b.Phased
  line : ∀ t ∈ b.line, 0 < t ∧ t ≤ b.lastProcessed.index
  pending : ∀ cp ∈ b.pendingBatches, cp.metadata = m cp.index ∧ cp.index ≤ b.lastProcessed.index
  sorted : b.pendingBatches.Pairwise fun cp cp' => cp.index < cp'.index
  stored : ∀ t x, b.metadata.get t = some x → x = m t
  covered : ∀ t ∈ b.line, (∃ cp ∈ b.pendingBatches, cp.index = t) ∨ b.Kept t
  committed : ∀ t ∈ b.line, (∃ x ∈ b.queue, x.canceled = false ∧ x.index = t) ∨ b.Kept t
  queued : ∀ x ∈ b.queue, x.canceled = false → x.checkpoint.metadata = m x.index ∧
    x.index ∈ b.line ∧ b.lastCommitted.index < x.index ∧ (x.restored = true → b.Kept x.index)
  ordered : b.queue.Pairwise fun x y => x.canceled = false → y.canceled = false → x.index < y.index
  flushed : ∀ x, b.flushed = some x → x.canceled = false →
    x.index ∈ b.line ∧ ∀ y ∈ b.queue, y.canceled = false → x.index < y.index
  -- a rollback corrects the committed checkpoint only when the write worker gets to it
  settled : (∀ target, b.phase ≠ .rolling target) → b.lastCommitted.index ≤ b.lastProcessed.index

theorem sound_empty (m : Nat → M) : Sound m ({} : Books M) where
  paced := Nat.le_refl 0
  phased := rfl
  line _ h := by cases h
  pending _ h := by cases h
  sorted := List.Pairwise.nil
  stored _ _ h := by cases h
  covered _ h := by cases h
  committed _ h := by cases h
  queued _ h := by cases h
  ordered := List.Pairwise.nil
  flushed _ h := by cases h
  settled _ := Nat.le_refl _

theorem Paced.reach_le_cursor (h : b.Paced) : b.reach ≤ b.cursor := by
  unfold Paced at h
  unfold reach
  split at h
  · next hp => rw [hp]
  · next hp => rw [hp]
  · next hp =>
    rw [hp]
    exact h.2.2.1 ▸ h.2.1
  · next hp => rw [hp]
  · next hp => rw [hp]

/-! ### The pending queue -/

omit [Inhabited M] in
theorem searchPending_eq_some {t : Nat} {cps : List (Checkpoint M)} {cp : Checkpoint M}
    (h : searchPending t cps = some cp) : cp ∈ cps ∧ cp.index = t := by
  induction cps with
  | nil => cases h
  | cons c cps ih =>
    rw [searchPending] at h
    split at h
    · next heq =>
      cases h
      exact ⟨List.mem_cons_self, heq⟩
    · split at h
      · cases h
      · have ⟨hmem, hindex⟩ := ih h
        exact ⟨List.mem_cons_of_mem _ hmem, hindex⟩

omit [Inhabited M] in
/-- In an ascending queue the search stops early for nothing. -/
theorem searchPending_isSome {t : Nat} {cps : List (Checkpoint M)}
    (hsorted : cps.Pairwise fun cp cp' => cp.index < cp'.index) (hmem : ∃ cp ∈ cps, cp.index = t) :
    ∃ cp, searchPending t cps = some cp := by
  induction cps with
  | nil =>
    have ⟨_, hcp, _⟩ := hmem
    cases hcp
  | cons c cps ih =>
    have ⟨hhead, htail⟩ := List.pairwise_cons.mp hsorted
    have ⟨cp, hcp, hindex⟩ := hmem
    rw [searchPending]
    match List.mem_cons.mp hcp with
    | .inl heq => exact ⟨c, if_pos (heq ▸ hindex)⟩
    | .inr hcp =>
      have hlt := hhead cp hcp
      rw [if_neg (by omega), if_neg (by omega)]
      exact ih htail ⟨cp, hcp, hindex⟩

theorem index_lookupCheckpoint (b : Books M) (t : Nat) : (b.lookupCheckpoint t).index = t := by
  unfold lookupCheckpoint
  split
  · next hzero => exact hzero.symm
  · cases hfound : searchPending t b.pendingBatches with
    | none => rfl
    | some cp => exact (searchPending_eq_some hfound).2

omit [Inhabited M] in
/-- Popping from the back takes off exactly what is above the target. -/
theorem mem_rdropWhile_above {t : Nat} {cps : List (Checkpoint M)}
    (hsorted : cps.Pairwise fun cp cp' => cp.index < cp'.index) {cp : Checkpoint M} :
    cp ∈ cps.rdropWhile (fun cp => decide (t < cp.index)) ↔ cp ∈ cps ∧ cp.index ≤ t := by
  induction cps using List.reverseRecOn with
  | nil => exact iff_of_false List.not_mem_nil fun h => List.not_mem_nil h.1
  | append_singleton cps last ih =>
    have ⟨hsorted', _, hlast⟩ := List.pairwise_append.mp hsorted
    rw [List.rdropWhile_concat, List.mem_append, List.mem_singleton]
    split
    · next hgt =>
      rw [ih hsorted']
      refine and_congr_left fun hle => ?_
      have hne : cp ≠ last := fun heq => by
        rw [heq] at hle
        exact absurd (of_decide_eq_true hgt) (Nat.not_lt.mpr hle)
      exact (or_iff_left hne).symm
    · next hle =>
      have hlast' : last.index ≤ t := Nat.not_lt.mp fun hlt => hle (decide_eq_true hlt)
      rw [List.mem_append, List.mem_singleton]
      refine (and_iff_left_of_imp fun hmem => ?_).symm
      match hmem with
      | .inl hcp => exact Nat.le_of_lt (Nat.lt_of_lt_of_le (hlast cp hcp last (List.mem_singleton.mpr rfl)) hlast')
      | .inr heq => exact heq ▸ hlast'

omit [Inhabited M] in
theorem mem_dropWhile_or (p : Checkpoint M → Bool) {cps : List (Checkpoint M)} {cp : Checkpoint M}
    (h : cp ∈ cps) : cp ∈ cps.dropWhile p ∨ p cp = true := by
  rw [← List.takeWhile_append_dropWhile (p := p) (l := cps)] at h
  match List.mem_append.mp h with
  | .inl htake => exact .inr (List.mem_takeWhile_imp htake)
  | .inr hdrop => exact .inl hdrop

/-! ### The scheduler thread -/

theorem Sound.drainCommitted (h : b.Sound m) : b.drainCommitted.Sound m where
  paced := h.paced
  phased := h.phased
  line := h.line
  pending cp hcp := h.pending cp ((List.dropWhile_sublist _).subset hcp)
  sorted := h.sorted.sublist (List.dropWhile_sublist _)
  stored := h.stored
  covered t ht := by
    match h.covered t ht with
    | .inr hkept => exact .inr hkept
    | .inl ⟨cp, hcp, hindex⟩ =>
      match mem_dropWhile_or (fun cp => decide (cp.index ≤ b.lastCommitted.index)) hcp with
      | .inl hdrop => exact .inl ⟨cp, hdrop, hindex⟩
      | .inr hcommitted =>
        -- a batch still on its way is above the committed checkpoint
        refine .inr ((h.committed t ht).resolve_left fun ⟨x, hx, hopen, hxt⟩ => ?_)
        have hlt := (h.queued x hx hopen).2.2.1
        have hle : cp.index ≤ b.lastCommitted.index := of_decide_eq_true hcommitted
        omega
  committed := h.committed
  queued := h.queued
  ordered := h.ordered
  flushed := h.flushed
  settled := h.settled

theorem Paced.nextRoot (h : b.Paced) (checkpoint : Checkpoint M) :
    ({ b with root := if b.root.index = 0 then checkpoint else b.root } : Books M).Paced := by
  by_cases hzero : b.root.index = 0
  · unfold Paced at *
    rw [hzero] at h
    simp only [hzero, if_true]
    split at h
    · exact Nat.le_trans h (Nat.zero_le _)
    · exact ⟨Nat.le_trans h.1 (Nat.zero_le _), h.2⟩
    · exact ⟨Nat.le_trans h.1 (Nat.zero_le _), h.2⟩
    · exact h
    · exact absurd h.2.2.symm (Nat.succ_ne_zero _)
  · rw [if_neg hzero]
    exact h

theorem Sound.nextCheckpoint (h : b.Sound m) (supportsRestore : Bool) {outcome : AppendOutcome}
    (hphase : b.phase = .idle) (hid : b.lastProcessed.index < outcome.id) :
    (b.nextCheckpoint supportsRestore (m outcome.id) outcome).Sound m := by
  have hd := h.drainCommitted
  have hsettled := h.settled fun target hrolling => by
    rw [hphase] at hrolling
    cases hrolling
  have hold : ∀ t ∈ b.line, t < outcome.id := fun t ht => Nat.lt_of_le_of_lt (h.line t ht).2 hid
  have hkept : ∀ {t}, b.Kept t → (b.nextCheckpoint supportsRestore (m outcome.id) outcome).Kept t := id
  constructor
  case paced => exact h.paced.nextRoot _
  case phased =>
    have hfree := h.phased
    have hnext : (b.nextCheckpoint supportsRestore (m outcome.id) outcome).phase = .idle := hphase
    rw [Phased, hphase] at hfree
    rw [Phased, hnext]
    exact hfree
  case line =>
    intro t ht
    match List.mem_append.mp ht with
    | .inl ht => exact ⟨(h.line t ht).1, Nat.le_of_lt (hold t ht)⟩
    | .inr ht =>
      rw [List.mem_singleton.mp ht]
      exact ⟨Nat.zero_lt_of_lt hid, Nat.le_refl _⟩
  case pending =>
    intro cp hcp
    match List.mem_append.mp hcp with
    | .inl hcp =>
      have ⟨hmetadata, hle⟩ := hd.pending cp hcp
      exact ⟨hmetadata, Nat.le_trans hle (Nat.le_of_lt hid)⟩
    | .inr hcp =>
      rw [List.mem_singleton.mp hcp]
      exact ⟨rfl, Nat.le_refl _⟩
  case sorted =>
    refine List.pairwise_append.mpr ⟨hd.sorted, List.pairwise_singleton _ _, fun cp hcp cp' hcp' => ?_⟩
    rw [List.mem_singleton.mp hcp']
    exact Nat.lt_of_le_of_lt (hd.pending cp hcp).2 hid
  case stored => exact h.stored
  case covered =>
    intro t ht
    match List.mem_append.mp ht with
    | .inl ht =>
      exact (hd.covered t ht).imp (fun ⟨cp, hcp, hindex⟩ => ⟨cp, List.mem_append_left _ hcp, hindex⟩) hkept
    | .inr ht =>
      exact .inl ⟨_, List.mem_append_right _ (List.mem_singleton.mpr rfl), (List.mem_singleton.mp ht).symm⟩
  case committed =>
    intro t ht
    match List.mem_append.mp ht with
    | .inl ht =>
      exact (h.committed t ht).imp (fun ⟨x, hx, hopen⟩ => ⟨x, List.mem_append_left _ hx, hopen⟩) hkept
    | .inr ht =>
      exact .inl ⟨_, List.mem_append_right _ (List.mem_singleton.mpr rfl), rfl, (List.mem_singleton.mp ht).symm⟩
  case queued =>
    intro x hx hopen
    match List.mem_append.mp hx with
    | .inl hx =>
      have ⟨hmetadata, hline, hlt, hrestored⟩ := h.queued x hx hopen
      exact ⟨hmetadata, List.mem_append_left _ hline, hlt, fun hr => hkept (hrestored hr)⟩
    | .inr hx =>
      rw [List.mem_singleton.mp hx]
      refine ⟨rfl, List.mem_append_right _ (List.mem_singleton.mpr rfl), Nat.lt_of_le_of_lt hsettled hid, fun hr => ?_⟩
      have ⟨_, hstored⟩ := Bool.and_eq_true_iff.mp hr
      exact .inl (Option.isSome_iff_ne_none.mp hstored)
  case ordered =>
    refine List.pairwise_append.mpr ⟨h.ordered, List.pairwise_singleton _ _, fun x hx y hy hopen _ => ?_⟩
    rw [List.mem_singleton.mp hy]
    exact hold _ (h.queued x hx hopen).2.1
  case flushed =>
    intro x hx hopen
    have ⟨hline, hbelow⟩ := h.flushed x hx hopen
    refine ⟨List.mem_append_left _ hline, fun y hy hy' => ?_⟩
    match List.mem_append.mp hy with
    | .inl hy => exact hbelow y hy hy'
    | .inr hy =>
      rw [List.mem_singleton.mp hy]
      exact hold _ hline
  case settled => exact fun _ => Nat.le_of_lt (Nat.lt_of_le_of_lt hsettled hid)

/-- A step that moves the scheduler thread on, with no rollback on its way to the write
worker. -/
theorem Sound.phase (h : b.Sound m) {ceiling : Option Nat} {phase : Phase M}
    {returned : Option (Except SchedulerError (Checkpoint M))}
    (hphased : Phased { b with ceiling := ceiling, phase := phase })
    (hsettled : b.lastCommitted.index ≤ b.lastProcessed.index) :
    Sound m { b with ceiling := ceiling, phase := phase, returned := returned } :=
  { h with phased := hphased, settled := fun _ => hsettled }

theorem Sound.rollbackTo (h : b.Sound m) {t : Nat} (ht : t = 0 ∨ t ∈ b.line)
    (hstep : b.rollbackTo t = some b') : b'.Sound m := by
  unfold Books.rollbackTo at hstep
  split at hstep
  · next hphase =>
    have hsettled := h.settled fun _ hrolling => by cases hphase.symm.trans hrolling
    split at hstep
    · next hlt =>
      cases hstep
      exact h.phase ⟨rfl, hlt, ht⟩ hsettled
    · cases hstep
      exact { h with }
  · cases hstep

theorem Sound.readCursor (h : b.Sound m) (hstep : b.readCursor = some b') : b'.Sound m := by
  unfold Books.readCursor at hstep
  split at hstep
  · next t hphase =>
    have hsettled := h.settled fun _ hrolling => by cases hphase.symm.trans hrolling
    obtain ⟨hceiling, haimed⟩ : b.ceiling = some t ∧ b.Aimed t := by
      have hphased := h.phased
      rwa [Phased, hphase] at hphased
    cases hstep
    refine h.phase ?_ hsettled
    by_cases hcursor : b.cursor ≤ t
    · rw [if_pos hcursor]
      exact ⟨hceiling, Nat.le_trans h.paced.reach_le_cursor hcursor, haimed⟩
    · rw [if_neg hcursor]
      trivial
  · cases hstep

theorem Sound.resetCeiling (h : b.Sound m) (hstep : b.resetCeiling = some b') : b'.Sound m := by
  unfold Books.resetCeiling at hstep
  split at hstep
  · next hphase =>
    cases hstep
    exact h.phase rfl (h.settled fun _ hrolling => by cases hphase.symm.trans hrolling)
  · cases hstep

theorem Sound.lookup (h : b.Sound m) (hstep : b.lookup = some b') : b'.Sound m := by
  unfold Books.lookup at hstep
  split at hstep
  · next t hphase =>
    have hphased := h.phased
    rw [Phased, hphase] at hphased
    cases hstep
    refine h.phase ?_ (h.settled fun _ hrolling => by cases hphase.symm.trans hrolling)
    change b.ceiling = some (b.lookupCheckpoint t).index ∧ b.reach ≤ (b.lookupCheckpoint t).index ∧
      b.Aimed (b.lookupCheckpoint t).index
    rw [b.index_lookupCheckpoint t]
    exact hphased
  · cases hstep

theorem Sound.unpause (h : b.Sound m) (hstep : b.unpause = some b') : b'.Sound m := by
  unfold Books.unpause at hstep
  split at hstep
  · next target hphase =>
    cases hstep
    exact h.phase rfl (h.settled fun _ hrolling => by cases hphase.symm.trans hrolling)
  · cases hstep

omit [Inhabited M] in
theorem Scheduled.cancel_eq_false {t : Nat} {x : Scheduled M} :
    (x.cancel t).canceled = false ↔ x.canceled = false ∧ x.index ≤ t := by
  rw [Scheduled.cancel, Bool.or_eq_false_iff, decide_eq_false_iff_not, Nat.not_lt]

theorem Sound.cancelAndRollback (h : b.Sound m) {target : Checkpoint M} (hphase : b.phase = .found target) :
    (b.cancelAndRollback target).Sound m := by
  have hline : ∀ {t'}, t' ∈ (b.cancelAndRollback target).line ↔ t' ∈ b.line ∧ t' ≤ target.index := by
    intro t'
    exact List.mem_filter.trans (and_congr_right' decide_eq_true_iff)
  have hpending : ∀ {cp}, cp ∈ (b.cancelAndRollback target).pendingBatches ↔
      cp ∈ b.pendingBatches ∧ cp.index ≤ target.index :=
    mem_rdropWhile_above h.sorted
  have hqueue : ∀ {x'}, x' ∈ (b.cancelAndRollback target).queue → x'.canceled = false →
      ∃ x ∈ b.queue, x.cancel target.index = x' ∧ x.canceled = false ∧ x.index ≤ target.index := by
    intro x' hx' hopen
    have ⟨x, hx, heq⟩ := List.mem_map.mp hx'
    rw [← heq] at hopen
    exact ⟨x, hx, heq, Scheduled.cancel_eq_false.mp hopen⟩
  constructor
  case paced => exact h.paced
  case phased =>
    have hphased := h.phased
    rw [Phased, hphase] at hphased
    exact ⟨hphased.1, hphased.2.1, rfl⟩
  case line => exact fun t' ht' => ⟨(h.line t' (hline.mp ht').1).1, (hline.mp ht').2⟩
  case pending => exact fun cp hcp => ⟨(h.pending cp (hpending.mp hcp).1).1, (hpending.mp hcp).2⟩
  case sorted => exact h.sorted.sublist (List.rdropWhile_prefix _ _).sublist
  case stored => exact h.stored
  case covered =>
    intro t' ht'
    have ⟨hmem, hle⟩ := hline.mp ht'
    refine (h.covered t' hmem).imp_left fun ⟨cp, hcp, hcp'⟩ => ⟨cp, hpending.mpr ⟨hcp, ?_⟩, hcp'⟩
    rwa [hcp']
  case committed =>
    intro t' ht'
    have ⟨hmem, hle⟩ := hline.mp ht'
    refine (h.committed t' hmem).imp_left fun ⟨x, hx, hopen, hxt⟩ => ?_
    exact ⟨x.cancel target.index, List.mem_map_of_mem hx, Scheduled.cancel_eq_false.mpr ⟨hopen, by rwa [hxt]⟩, hxt⟩
  case queued =>
    intro x' hx' hopen
    have ⟨x, hx, heq, hopen', hle⟩ := hqueue hx' hopen
    have ⟨hmetadata, hmem, hlt, hrestored⟩ := h.queued x hx hopen'
    subst heq
    exact ⟨hmetadata, hline.mpr ⟨hmem, hle⟩, hlt, hrestored⟩
  case ordered =>
    refine List.pairwise_map.mpr (h.ordered.imp fun {x y} hlt hx hy => ?_)
    exact hlt (Scheduled.cancel_eq_false.mp hx).1 (Scheduled.cancel_eq_false.mp hy).1
  case flushed =>
    intro x' hx' hopen
    have ⟨x, hx, heq⟩ := Option.map_eq_some_iff.mp hx'
    subst heq
    have ⟨hopen', hle⟩ := Scheduled.cancel_eq_false.mp hopen
    have ⟨hmem, hbelow⟩ := h.flushed x hx hopen'
    refine ⟨hline.mpr ⟨hmem, hle⟩, fun y' hy' hy'' => ?_⟩
    have ⟨y, hy, heq, hyopen, _⟩ := hqueue hy' hy''
    subst heq
    exact hbelow y hy hyopen
  case settled => exact fun hnot => absurd rfl (hnot _)

/-- Back at genesis nothing has been pruned. -/
theorem Paced.unrooted (h : b.Paced) (hreach : b.reach = 0) {checkpoint : Checkpoint M}
    (hindex : checkpoint.index = 0) : ({ b with root := checkpoint } : Books M).Paced := by
  unfold Paced at *
  unfold reach at hreach
  dsimp only
  rw [hindex]
  split at h
  · next hp =>
    rw [hp] at hreach
    exact Nat.le_of_eq hreach
  · next hp =>
    rw [hp] at hreach
    exact ⟨Nat.le_of_eq hreach, h.2⟩
  · next hp =>
    rw [hp] at hreach
    exact ⟨Nat.le_of_eq hreach, h.2⟩
  · exact h
  · next hp =>
    rw [hp] at hreach
    have hcursor : b.cursor = 0 := hreach
    omega

theorem Sound.executeRollback (h : b.Sound m) (hstep : b.executeRollback = some b') : b'.Sound m := by
  unfold Books.executeRollback at hstep
  split at hstep
  · next target hphase hflushed =>
    have hphased := h.phased
    rw [Phased, hphase] at hphased
    obtain ⟨_, hreach, hlast⟩ := hphased
    cases hstep
    refine { h with
      paced := ?_
      phased := hlast
      queued := fun x hx hopen => ?_
      settled := fun _ => ?_ }
    · by_cases hzero : target.index = 0
      · have hroot := h.paced.unrooted (Nat.le_zero.mp (hzero ▸ hreach)) hzero
        rw [decide_eq_true hzero]
        exact hroot
      · rw [decide_eq_false hzero]
        exact h.paced
    · have ⟨hmetadata, hmem, hlt, hrestored⟩ := h.queued x hx hopen
      refine ⟨hmetadata, hmem, ?_, hrestored⟩
      have hle := (h.line _ hmem).2
      rw [hlast] at hle
      dsimp only
      rw [decide_eq_false (by omega)]
      exact hlt
    · dsimp only
      rw [hlast]
      split
      · exact Nat.le_refl _
      · next hnot => exact Nat.not_lt.mp fun hlt => hnot (decide_eq_true hlt)
  · cases hstep

/-! ### The write worker -/

theorem Sound.write (h : b.Sound m) {index : Nat} (hstep : b.write index = some b') : b'.Sound m := by
  unfold Books.write at hstep
  split at hstep
  · cases hstep
    exact { h with }
  · cases hstep

theorem Sound.flush (h : b.Sound m) (hstep : b.flush = some b') : b'.Sound m := by
  unfold Books.flush at hstep
  split at hstep
  · next x rest hqueue hflushed =>
    have hordered := h.ordered
    rw [hqueue] at hordered
    have ⟨hhead, htail⟩ := List.pairwise_cons.mp hordered
    have hrest : ∀ {y}, y ∈ rest → y ∈ b.queue := fun hy => hqueue ▸ List.mem_cons_of_mem x hy
    split at hstep
    · next hcanceled =>
      cases hstep
      refine { h with
        committed := fun t ht => (h.committed t ht).imp_left fun ⟨y, hy, hopen, hyt⟩ => ?_
        queued := fun y hy => h.queued y (hrest hy)
        ordered := htail
        flushed := fun y hy hopen => ?_ }
      · change b.flushed = some y at hy
        rw [hflushed] at hy
        cases hy
      · rw [hqueue] at hy
        match List.mem_cons.mp hy with
        | .inl heq =>
          rw [heq, hcanceled] at hopen
          cases hopen
        | .inr hy => exact ⟨y, hy, hopen, hyt⟩
    · next hopen =>
      have hopen : x.canceled = false := Bool.eq_false_iff.mpr hopen
      have ⟨hmetadata, hline, _, hrestored⟩ := h.queued x (hqueue ▸ List.mem_cons_self) hopen
      cases hstep
      have hget : ∀ t, (if x.restored = true then b.metadata
          else b.metadata.put x.index x.checkpoint.metadata).get t =
            if x.restored = false ∧ t = x.index then some x.checkpoint.metadata else b.metadata.get t := by
        intro t
        cases x.restored with
        | true => simp
        | false => simp [Column.get_put]
      have hkept : ∀ {t}, b.Kept t → (if x.restored = true then b.metadata
          else b.metadata.put x.index x.checkpoint.metadata).get t ≠ none ∨ t ≤ b.reach := by
        intro t ht
        refine ht.imp_left fun hne => ?_
        rw [hget]
        split
        · exact Option.some_ne_none _
        · exact hne
      refine { h with
        stored := fun t y hy => ?_
        covered := fun t ht => (h.covered t ht).imp_right hkept
        committed := fun t ht => ?_
        queued := fun y hy hyopen => ?_
        ordered := htail
        flushed := fun y hy _ => ?_ }
      · dsimp only at hy
        rw [hget] at hy
        split at hy
        · next heq =>
          cases hy
          rw [hmetadata, heq.2]
        · exact h.stored t y hy
      · match h.committed t ht with
        | .inr hk => exact .inr (hkept hk)
        | .inl ⟨y, hy, hyopen, hyt⟩ =>
          rw [hqueue] at hy
          match List.mem_cons.mp hy with
          | .inr hy => exact .inl ⟨y, hy, hyopen, hyt⟩
          | .inl heq =>
            rw [heq] at hyt
            refine .inr ?_
            cases hr : x.restored with
            | true =>
              have hk := hkept (hyt ▸ hrestored hr)
              rw [hr] at hk
              exact hk
            | false =>
              refine .inl ?_
              change (b.metadata.put x.index x.checkpoint.metadata).get t ≠ none
              rw [Column.get_put, if_pos hyt.symm]
              exact Option.some_ne_none _
      · have ⟨hm, hl, hlt, hr⟩ := h.queued y (hrest hy) hyopen
        exact ⟨hm, hl, hlt, fun hyr => hkept (hr hyr)⟩
      · cases hy
        exact ⟨hline, fun z hz hzopen => hhead z hz hopen hzopen⟩
  · cases hstep

theorem Sound.commitDone (h : b.Sound m) (hstep : b.commitDone = some b') : b'.Sound m := by
  unfold Books.commitDone at hstep
  split at hstep
  · next x hflushed =>
    cases hstep
    cases hcanceled : x.canceled with
    | true => exact { h with flushed := fun _ hx => by cases hx }
    | false =>
      have ⟨hline, hbelow⟩ := h.flushed x hflushed hcanceled
      refine { h with
        queued := fun y hy hopen => ?_
        flushed := fun _ hx => by cases hx
        settled := fun _ => (h.line _ hline).2 }
      have ⟨hmetadata, hmem, _, hrestored⟩ := h.queued y hy hopen
      exact ⟨hmetadata, hmem, hbelow y hy hopen, hrestored⟩
  · cases hstep

/-! ### The pruning thread -/

theorem Phased.passed (h : b.Phased) {cursor : Nat} {pruner : Pruner M}
    (hreach : ∀ ceiling, b.ceiling = some ceiling → b.reach ≤ ceiling →
      reach { b with cursor := cursor, pruner := pruner } ≤ ceiling) :
    Phased { b with cursor := cursor, pruner := pruner } := by
  unfold Phased at h ⊢
  dsimp only
  cases hphase : b.phase with
  | idle | paused | conflicted | executed =>
    rw [hphase] at h
    exact h
  | cleared t =>
    rw [hphase] at h
    exact ⟨h.1, hreach _ h.1 h.2.1, h.2.2⟩
  | found target | rolling target =>
    rw [hphase] at h
    exact ⟨h.1, hreach _ h.1 h.2.1, h.2.2⟩

/-- A step that moves the cursor and the root, and deletes only behind the cursor. -/
theorem Sound.passed (h : b.Sound m) {cursor : Nat} {pruner : Pruner M} {root storedRoot : Checkpoint M}
    {metadata : Column Nat M}
    (hpaced : Paced { b with cursor := cursor, pruner := pruner, root := root })
    (hstored : ∀ t x, metadata.get t = some x → b.metadata.get t = some x)
    (hkept : ∀ {t}, b.Kept t → Kept { b with cursor := cursor, pruner := pruner, metadata := metadata } t)
    (hreach : ∀ ceiling, b.ceiling = some ceiling → b.reach ≤ ceiling →
      reach { b with cursor := cursor, pruner := pruner } ≤ ceiling) :
    Sound m { b with
      cursor := cursor, pruner := pruner, root := root, storedRoot := storedRoot, metadata := metadata } := by
  refine { h with
    paced := hpaced
    phased := h.phased.passed hreach
    stored := fun t x hx => h.stored t x (hstored t x hx)
    covered := fun t ht => (h.covered t ht).imp_right hkept
    committed := fun t ht => (h.committed t ht).imp_right hkept
    queued := fun x hx hopen => ?_ }
  have ⟨hmetadata, hline, hlt, hrestored⟩ := h.queued x hx hopen
  exact ⟨hmetadata, hline, hlt, fun hr => hkept (hrestored hr)⟩

theorem Sound.range (h : b.Sound m) (hstep : b.range = some b') : b'.Sound m := by
  unfold Books.range at hstep
  split at hstep
  · next hpruner =>
    have hpaced := h.paced
    have hreach : b.reach = b.cursor := by rw [reach, hpruner]
    unfold Paced at hpaced
    rw [hpruner] at hpaced
    dsimp only at hstep
    split at hstep
    · next hrange =>
      cases hstep
      refine h.passed ⟨hpaced, Nat.le_trans hpaced hrange.1, Nat.lt_of_lt_of_le hrange.2 hrange.1⟩
        (fun _ _ hx => hx) (fun ht => ?_) fun _ _ hle => hreach ▸ hle
      rwa [Kept, hreach] at ht
    · cases hstep
  · cases hstep

theorem Sound.announce (h : b.Sound m) (hstep : b.announce = some b') : b'.Sound m := by
  unfold Books.announce at hstep
  split at hstep
  · next lower upper hpruner =>
    have ⟨hroot, hupper, hpos⟩ : b.cursor ≤ b.root.index ∧ b.cursor ≤ upper ∧ 0 < upper := by
      have hpaced := h.paced
      unfold Paced at hpaced
      rwa [hpruner] at hpaced
    have hreach : b.reach = b.cursor := by rw [reach, hpruner]
    cases hstep
    refine h.passed ⟨hroot, hupper, rfl, hpos⟩ (fun _ _ hx => hx) (fun ht => ?_) fun _ _ hle => hreach ▸ hle
    rwa [Kept, hreach] at ht
  · cases hstep

theorem Sound.checkCeiling (h : b.Sound m) (hstep : b.checkCeiling = some b') : b'.Sound m := by
  unfold Books.checkCeiling at hstep
  split at hstep
  · next lower upper prev hpruner =>
    have ⟨hroot, hupper, hcursor, hpos⟩ :
        prev ≤ b.root.index ∧ prev ≤ upper ∧ b.cursor = upper ∧ 0 < upper := by
      have hpaced := h.paced
      unfold Paced at hpaced
      rwa [hpruner] at hpaced
    have hreach : b.reach = prev := by rw [reach, hpruner]
    split at hstep
    · cases hstep
      refine h.passed hroot (fun _ _ hx => hx) (fun ht => ?_) fun _ _ hle => hreach ▸ hle
      rwa [Kept, hreach] at ht
    · next hceiling =>
      cases hstep
      refine h.passed ⟨hcursor, hpos⟩ (fun _ _ hx => hx) (fun ht => ?_) fun ceiling hsome _ => ?_
      · rw [Kept, hreach] at ht
        exact ht.imp_right fun hle => Nat.le_trans hle (hcursor ▸ hupper)
      · -- a ceiling at or below the range would have aborted the pass
        rw [hsome, Option.any_some, decide_eq_true_eq] at hceiling
        change b.cursor ≤ ceiling
        omega
  · cases hstep

theorem Sound.advanceRoot (h : b.Sound m) (hstep : b.advanceRoot = some b') : b'.Sound m := by
  unfold Books.advanceRoot at hstep
  split at hstep
  · next lower upper hpruner =>
    have ⟨hcursor, hpos⟩ : b.cursor = upper ∧ 0 < upper := by
      have hpaced := h.paced
      unfold Paced at hpaced
      rwa [hpruner] at hpaced
    have hreach : b.reach = b.cursor := by rw [reach, hpruner]
    cases hstep
    refine h.passed ⟨hcursor, hpos, rfl⟩ (fun _ _ hx => hx) (fun ht => ?_) fun _ _ hle => hreach ▸ hle
    rwa [Kept, hreach] at ht
  · cases hstep

omit [Inhabited M] in
theorem get_deleteRange (c : Column Nat M) (lower upper t : Nat) :
    (c.writeAll ((List.range' lower (upper + 1 - lower)).map .delete)).get t =
      if lower ≤ t ∧ t ≤ upper then none else c.get t := by
  split
  · next hrange =>
    refine Column.get_writeAll_of_same (fun w hw _ => ?_) ⟨.delete t, ?_, rfl⟩ c
    · have ⟨_, _, heq⟩ := List.mem_map.mp hw
      rw [← heq]
      rfl
    · refine List.mem_map_of_mem (List.mem_range'_1.mpr ?_)
      omega
  · next hrange =>
    refine Column.get_writeAll_of_ne (fun w hw heq => hrange ?_) c
    have ⟨i, hi, hwi⟩ := List.mem_map.mp hw
    rw [← hwi] at heq
    have hit : i = t := heq
    have hbounds := List.mem_range'_1.mp hi
    omega

theorem Sound.prune (h : b.Sound m) (hstep : b.prune = some b') : b'.Sound m := by
  unfold Books.prune at hstep
  split at hstep
  · next lower upper newRoot hpruner =>
    have ⟨hcursor, hpos, hroot⟩ : b.cursor = upper ∧ 0 < upper ∧ b.root.index = upper + 1 := by
      have hpaced := h.paced
      unfold Paced at hpaced
      rwa [hpruner] at hpaced
    have hreach : b.reach = b.cursor := by rw [reach, hpruner]
    cases hstep
    refine h.passed ?_ (fun t x hx => ?_) (fun {t} ht => ?_) fun _ _ hle => hreach ▸ hle
    · change b.cursor ≤ b.root.index
      omega
    · rw [get_deleteRange] at hx
      split at hx
      · cases hx
      · exact hx
    · rw [Kept, hreach] at ht
      rw [Kept, get_deleteRange]
      change (if lower ≤ t ∧ t ≤ upper then none else b.metadata.get t) ≠ none ∨ t ≤ b.cursor
      split
      · exact .inr (by omega)
      · exact ht
  · cases hstep

/-! ### Steps -/

/-- A rollback goes back to a block of the branch. -/
def Contract (b : Books M) : Event → Prop
  | .rollbackTo target => target = 0 ∨ target ∈ b.line
  | _ => True

theorem Sound.step (h : b.Sound m) {e : Event} (hcontract : b.Contract e) (hstep : b.step e = some b') :
    b'.Sound m := by
  match e with
  | .rollbackTo target => exact h.rollbackTo hcontract hstep
  | .readCursor => exact h.readCursor hstep
  | .resetCeiling => exact h.resetCeiling hstep
  | .lookup => exact h.lookup hstep
  | .executeRollback => exact h.executeRollback hstep
  | .unpause => exact h.unpause hstep
  | .write index => exact h.write hstep
  | .flush => exact h.flush hstep
  | .commitDone => exact h.commitDone hstep
  | .range => exact h.range hstep
  | .announce => exact h.announce hstep
  | .checkCeiling => exact h.checkCeiling hstep
  | .advanceRoot => exact h.advanceRoot hstep
  | .prune => exact h.prune hstep

/-- No step of the books moves the line or what was scheduled last. -/
theorem step_frame {e : Event} (hstep : b.step e = some b') :
    b'.line = b.line ∧ b'.lastProcessed = b.lastProcessed := by
  cases e <;>
    simp only [Books.step, Books.rollbackTo, Books.readCursor, Books.resetCeiling, Books.lookup,
      Books.executeRollback, Books.unpause, Books.write, Books.flush, Books.commitDone,
      Books.range, Books.announce, Books.checkCeiling, Books.advanceRoot, Books.prune] at hstep <;>
    grind

end Books

end Vprogs.Scheduler
