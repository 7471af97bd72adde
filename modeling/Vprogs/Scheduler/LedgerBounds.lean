import Vprogs.Scheduler.LedgerSound

/-!
The ids the books speak of: all have been given out, and the root, which a pass of the
pruning thread moves forward, is in the log.
-/
namespace Vprogs.Scheduler

open Canonical

namespace Books

variable {M : Type} [Inhabited M] {m : Nat → M} {b b' : Books M} {base seen : Nat}

/-- The range of a pass against the root. -/
def Pass (b : Books M) (seen : Nat) : Prop :=
  match b.pruner with
  | .idle => True
  | .ranged lower upper | .announced lower upper _ | .pruning lower upper =>
    b.root.index = lower ∧ 0 < lower ∧ lower ≤ upper ∧ upper < seen
  | .deleting _ upper _ => b.root.index = upper + 1

/-- The books speak of ids up to `seen`, and the root is one from `base` on. -/
structure Within (base seen : Nat) (b : Books M) : Prop where
  stored : ∀ t x, b.metadata.get t = some x → 0 < t ∧ t ≤ seen
  written : ∀ t ∈ b.written, t ≤ seen
  queued : ∀ x ∈ b.queue, 0 < x.index ∧ x.index ≤ seen
  threshold : b.threshold ≤ seen
  root : b.root.index ≤ seen
  rooted : b.root.index ≠ 0 → base ≤ b.root.index
  unrooted : b.root.index = 0 → b.line = []
  pass : b.Pass seen

theorem within_empty : Within 1 0 ({} : Books M) where
  stored _ _ h := by cases h
  written _ h := by cases h
  queued _ h := by cases h
  threshold := Nat.le_refl 0
  root := Nat.le_refl 0
  rooted h := absurd rfl h
  unrooted _ := rfl
  pass := trivial

theorem Pass.mono {seen' : Nat} (h : b.Pass seen) (hseen : seen ≤ seen') : b.Pass seen' := by
  unfold Pass at h ⊢
  split <;> simp only [*] at h ⊢ <;> omega

theorem Within.mono {seen' : Nat} (h : b.Within base seen) (hseen : seen ≤ seen') : b.Within base seen' where
  stored t x hx := ⟨(h.stored t x hx).1, Nat.le_trans (h.stored t x hx).2 hseen⟩
  written t ht := Nat.le_trans (h.written t ht) hseen
  queued x hx := ⟨(h.queued x hx).1, Nat.le_trans (h.queued x hx).2 hseen⟩
  threshold := Nat.le_trans h.threshold hseen
  root := Nat.le_trans h.root hseen
  rooted := h.rooted
  unrooted := h.unrooted
  pass := h.pass.mono hseen

theorem Within.nextCheckpoint (h : b.Within base seen) (supportsRestore : Bool) (metadata : M)
    {outcome : AppendOutcome} (hpos : 0 < outcome.id) (hbase : base ≤ outcome.id) (hseen : outcome.id ≤ seen) :
    (b.nextCheckpoint supportsRestore metadata outcome).Within base seen := by
  by_cases hroot : b.root.index = 0
  · have hnext : (b.nextCheckpoint supportsRestore metadata outcome).root = ⟨outcome.id, metadata⟩ :=
      if_pos hroot
    refine ⟨h.stored, h.written, fun x hx => ?_, h.threshold, ?_, ?_, ?_, ?_⟩
    · match List.mem_append.mp hx with
      | .inl hx => exact h.queued x hx
      | .inr hx => exact List.mem_singleton.mp hx ▸ ⟨hpos, hseen⟩
    · rw [hnext]
      exact hseen
    · rw [hnext]
      exact fun _ => hbase
    · rw [hnext]
      exact fun hzero => absurd hzero (Nat.ne_of_gt hpos)
    · -- no pass starts without a root
      have hpass := h.pass
      unfold Pass at hpass ⊢
      change match b.pruner with
        | .idle => True
        | .ranged lower upper | .announced lower upper _ | .pruning lower upper => _
        | .deleting _ upper _ => _
      split <;> simp only [*] at hpass ⊢ <;> omega
  · have hnext : (b.nextCheckpoint supportsRestore metadata outcome).root = b.root := if_neg hroot
    refine ⟨h.stored, h.written, fun x hx => ?_, h.threshold, ?_, ?_, ?_, ?_⟩
    · match List.mem_append.mp hx with
      | .inl hx => exact h.queued x hx
      | .inr hx => exact List.mem_singleton.mp hx ▸ ⟨hpos, hseen⟩
    · rw [hnext]
      exact h.root
    · rw [hnext]
      exact h.rooted
    · rw [hnext]
      exact fun hzero => absurd hzero hroot
    · have hpass := h.pass
      unfold Pass at hpass ⊢
      rw [hnext]
      exact hpass

theorem Within.cancelAndRollback (h : b.Within base seen) (target : Checkpoint M) :
    (b.cancelAndRollback target).Within base seen :=
  { h with
    queued := fun x hx => by
      have ⟨y, hy, heq⟩ := List.mem_map.mp hx
      exact heq ▸ h.queued y hy
    unrooted := fun hroot => by
      change b.line.filter _ = []
      rw [h.unrooted hroot, List.filter_nil] }

theorem Within.executeRollback (h : b.Within base seen) (hsound : b.Sound m)
    (hidle : b.lastProcessed.index = 0 → b.pruner = .idle) (hstep : b.executeRollback = some b') :
    b'.Within base seen := by
  unfold Books.executeRollback at hstep
  split at hstep
  · next target hphase hflushed =>
    have hphased := hsound.phased
    rw [Phased, hphase] at hphased
    have hlast := hphased.2.2
    cases hstep
    by_cases hzero : target.index = 0
    · have hline : b.line = [] := by
        refine List.eq_nil_iff_forall_not_mem.mpr fun t ht => ?_
        have := hsound.line t ht
        rw [hlast] at this
        omega
      have hpass : b.pruner = .idle := hidle (by rw [hlast, hzero])
      simp only [hzero, decide_true, if_true]
      refine ⟨h.stored, h.written, h.queued, h.threshold, ?_, fun hne => absurd hzero hne, fun _ => hline, ?_⟩
      · change target.index ≤ seen
        omega
      · unfold Pass
        change match b.pruner with
          | .idle => True
          | .ranged lower upper | .announced lower upper _ | .pruning lower upper => _
          | .deleting _ upper _ => _
        rw [hpass]
        trivial
    · simp only [hzero, decide_false, Bool.false_eq_true, if_false]
      exact { h with }
  · cases hstep

theorem Within.flush (h : b.Within base seen) (hstep : b.flush = some b') : b'.Within base seen := by
  unfold Books.flush at hstep
  split at hstep
  · next x rest hqueue hflushed =>
    have ⟨hx, hrest⟩ : (0 < x.index ∧ x.index ≤ seen) ∧ ∀ y ∈ rest, 0 < y.index ∧ y.index ≤ seen := by
      refine ⟨h.queued x ?_, fun y hy => h.queued y ?_⟩ <;> rw [hqueue]
      · exact List.mem_cons_self
      · exact List.mem_cons_of_mem _ hy
    split at hstep
    · cases hstep
      exact { h with queued := hrest }
    · cases hstep
      refine { h with stored := fun t y hy => ?_, written := fun t ht => ?_, queued := hrest }
      · change (if x.restored then b.metadata else b.metadata.put x.index x.checkpoint.metadata).get t = some y at hy
        split at hy
        · exact h.stored t y hy
        · rw [Column.get_put] at hy
          split at hy
          · next heq => exact heq ▸ hx
          · exact h.stored t y hy
      · change t ∈ (if x.restored then b.written else x.index :: b.written) at ht
        split at ht
        · exact h.written t ht
        · match List.mem_cons.mp ht with
          | .inl heq => exact heq ▸ hx.2
          | .inr ht => exact h.written t ht
  · cases hstep

/-- A step of the pruning thread, which moves the root forward at most. -/
theorem Within.passed (h : b.Within base seen) {cursor : Nat} {pruner : Pruner M} {metadata : Column Nat M}
    {root storedRoot : Checkpoint M} (hpos : 0 < b.root.index) (hroot : b.root.index ≤ root.index)
    (hseen : root.index ≤ seen) (hstored : ∀ t x, metadata.get t = some x → b.metadata.get t = some x)
    (hpass : Pass { b with root := root, cursor := cursor, pruner := pruner } seen) :
    Within base seen { b with
      root := root, metadata := metadata, storedRoot := storedRoot, cursor := cursor, pruner := pruner } where
  stored t x hx := h.stored t x (hstored t x hx)
  written := h.written
  queued := h.queued
  threshold := h.threshold
  root := hseen
  rooted _ := Nat.le_trans (h.rooted (Nat.ne_of_gt hpos)) hroot
  unrooted hzero := absurd (Nat.lt_of_lt_of_le hpos hroot) (Nat.not_lt.mpr (Nat.le_of_eq hzero))
  pass := hpass

theorem Within.range (h : b.Within base seen) (hstep : b.range = some b') : b'.Within base seen := by
  unfold Books.range at hstep
  split at hstep
  · next hpruner =>
    dsimp only at hstep
    have hthreshold := h.threshold
    have hupper : (b.ceiling.elim b.threshold fun ceiling => min b.threshold ceiling) ≤ b.threshold := by
      cases b.ceiling with
      | none => exact Nat.le_refl _
      | some ceiling => exact Nat.min_le_left _ _
    split at hstep
    · next hrange =>
      cases hstep
      exact h.passed hrange.2 (Nat.le_refl _) h.root (fun _ _ hx => hx)
        ⟨rfl, hrange.2, hrange.1, by omega⟩
    · cases hstep
  · cases hstep

theorem Within.announce (h : b.Within base seen) (hstep : b.announce = some b') : b'.Within base seen := by
  unfold Books.announce at hstep
  split at hstep
  · next lower upper hpruner =>
    have hpass := h.pass
    rw [Pass, hpruner] at hpass
    cases hstep
    exact h.passed (hpass.1 ▸ hpass.2.1) (Nat.le_refl _) h.root (fun _ _ hx => hx) hpass
  · cases hstep

theorem Within.checkCeiling (h : b.Within base seen) (hstep : b.checkCeiling = some b') :
    b'.Within base seen := by
  unfold Books.checkCeiling at hstep
  split at hstep
  · next lower upper prev hpruner =>
    have hpass := h.pass
    rw [Pass, hpruner] at hpass
    have hpos : 0 < b.root.index := hpass.1 ▸ hpass.2.1
    split at hstep
    · cases hstep
      exact h.passed hpos (Nat.le_refl _) h.root (fun _ _ hx => hx) trivial
    · cases hstep
      exact h.passed hpos (Nat.le_refl _) h.root (fun _ _ hx => hx) hpass
  · cases hstep

theorem Within.advanceRoot (h : b.Within base seen) (hstep : b.advanceRoot = some b') :
    b'.Within base seen := by
  unfold Books.advanceRoot at hstep
  split at hstep
  · next lower upper hpruner =>
    have hpass := h.pass
    rw [Pass, hpruner] at hpass
    have ⟨hroot, hpos, hle, hlt⟩ := hpass
    cases hstep
    refine h.passed (hroot ▸ hpos) ?_ hlt (fun _ _ hx => hx) rfl
    change b.root.index ≤ upper + 1
    omega
  · cases hstep

theorem Within.prune (h : b.Within base seen) (hstep : b.prune = some b') : b'.Within base seen := by
  unfold Books.prune at hstep
  split at hstep
  · next lower upper newRoot hpruner =>
    have hpass := h.pass
    rw [Pass, hpruner] at hpass
    have hpos : 0 < b.root.index := Nat.lt_of_lt_of_eq (Nat.succ_pos upper) hpass.symm
    cases hstep
    refine h.passed hpos (Nat.le_refl _) h.root (fun t x hx => ?_) trivial
    rw [get_deleteRange] at hx
    split at hx
    · cases hx
    · exact hx
  · cases hstep

theorem Within.step (h : b.Within base seen) (hsound : b.Sound m) {e : Event}
    (hidle : e = .executeRollback → b.lastProcessed.index = 0 → b.pruner = .idle)
    (hstep : b.step e = some b') : b'.Within base seen := by
  cases e with
  | rollbackTo target =>
    simp only [Books.step, Books.rollbackTo] at hstep
    split at hstep
    · split at hstep <;> cases hstep <;> exact { h with }
    · cases hstep
  | readCursor | resetCeiling | lookup | unpause =>
    simp only [Books.step, Books.readCursor, Books.resetCeiling, Books.lookup, Books.unpause] at hstep
    split at hstep
    · cases hstep
      exact { h with }
    · cases hstep
  | executeRollback => exact h.executeRollback hsound (hidle rfl) hstep
  | write index =>
    simp only [Books.step, Books.write] at hstep
    split at hstep
    · next hany =>
      obtain ⟨x, hx, hcond⟩ := List.any_eq_true.mp hany
      have hindex : x.index = index := by simpa using (Bool.and_eq_true_iff.mp hcond).2
      cases hstep
      refine { h with written := fun t ht => ?_ }
      rcases List.mem_cons.mp ht with heq | ht
      · exact heq ▸ hindex ▸ (h.queued x hx).2
      · exact h.written t ht
    · cases hstep
  | flush => exact h.flush hstep
  | commitDone =>
    simp only [Books.step, Books.commitDone] at hstep
    split at hstep
    · cases hstep
      exact { h with }
    · cases hstep
  | range => exact h.range hstep
  | announce => exact h.announce hstep
  | checkCeiling => exact h.checkCeiling hstep
  | advanceRoot => exact h.advanceRoot hstep
  | prune => exact h.prune hstep

end Books

end Vprogs.Scheduler
