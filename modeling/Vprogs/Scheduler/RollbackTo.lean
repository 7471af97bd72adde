import Vprogs.Runs
import Vprogs.Scheduler.LedgerSound

/-!
What `rollback_to` returns. Its target is looked up in the pending queue and then on
disk, where an absent entry reads as the default. A pass that ends exactly at the
target deletes the entry, before the lookup or between it and the check of the cursor,
and does not count as a conflict.
-/
namespace Vprogs.Scheduler

open Canonical

namespace Ledger

variable {M : Type} [Inhabited M] [BatchMetadata M] (debug : Bool) {supportsRestore : Bool} (m : Nat → M)

/-- What a caller owes: a block comes with the metadata of its id, a returning one has
an id above the last processed, and a rollback goes back to a block of the branch. -/
def Contract (s : Ledger M) : Event M → Prop
  | .schedule metadata => ∀ outcome ∈ (s.manager.append (CanonicalChain.oracle debug) metadata).map Prod.fst,
      metadata = m outcome.id ∧ (outcome.isNew = false → s.books.lastProcessed.index < outcome.id)
  | .books e => s.books.Contract e
  | _ => True

omit [BatchMetadata M] in
structure Sound (s : Ledger M) : Prop where
  books : s.books.Sound m
  logged : s.manager.Logged
  seen : s.books.lastProcessed.index ≤ s.manager.seen
  tip : s.manager.chain.tip = s.books.lastProcessed.index

variable {debug m} {s s' : Ledger M}

omit [BatchMetadata M] in
theorem sound_init (m : Nat → M) : Sound m ({} : Ledger M) where
  books := Books.sound_empty m
  logged := ⟨Nat.one_pos, fun _ _ h => by cases h⟩
  seen := Nat.zero_le _
  tip := rfl

/-- A scheduled block gets an id above the last processed one. -/
theorem Sound.append_above (h : s.Sound m) {metadata : M} (hcontract : s.Contract debug m (.schedule metadata))
    {outcome : AppendOutcome} {manager : CanonicalChainManager CanonicalChain M}
    (happend : s.manager.append (CanonicalChain.oracle debug) metadata = some (outcome, manager)) :
    metadata = m outcome.id ∧ s.books.lastProcessed.index < outcome.id := by
  obtain ⟨hmetadata, hreturning⟩ := hcontract outcome (by rw [happend]; rfl)
  refine ⟨hmetadata, ?_⟩
  cases hisNew : outcome.isNew with
  | true =>
    have hseen := h.seen
    have hfresh := (h.logged.append happend).2.2.2 hisNew
    omega
  | false => exact hreturning hisNew

theorem Sound.schedule (h : s.Sound m) {metadata : M} (hcontract : s.Contract debug m (.schedule metadata))
    (hstep : s.schedule debug supportsRestore metadata = some s') : s'.Sound m := by
  unfold Ledger.schedule at hstep
  split at hstep
  · next hphase =>
    obtain ⟨⟨outcome, manager⟩, happend, heq⟩ := Option.map_eq_some_iff.mp hstep
    obtain ⟨hmetadata, habove⟩ := h.append_above hcontract happend
    obtain ⟨hlogged, hle, _, _⟩ := h.logged.append happend
    have hchain := CanonicalChainManager.append_chain (O := CanonicalChain.oracle debug)
      (Nat.lt_of_le_of_lt (Nat.le_of_eq h.tip) habove) happend
    cases heq
    rw [hmetadata]
    exact ⟨h.books.nextCheckpoint supportsRestore hphase habove, hlogged, hle, CanonicalChain.tip_append hchain⟩
  · cases hstep

omit [BatchMetadata M] in
theorem Sound.found (h : s.Sound m) {target : Checkpoint M} (hphase : s.books.phase = .found target) :
    target.index < s.books.lastProcessed.index ∧ (target.index = 0 ∨ target.index ∈ s.books.line) := by
  have hphased := h.books.phased
  rw [Books.Phased, hphase] at hphased
  exact hphased.2.2

omit [BatchMetadata M] in
theorem Sound.cancel (h : s.Sound m) (hstep : s.cancel debug = some s') : s'.Sound m := by
  unfold Ledger.cancel at hstep
  split at hstep
  · next target hphase =>
    obtain ⟨manager, hmanager, heq⟩ := Option.map_eq_some_iff.mp hstep
    obtain ⟨chain, hrollback, hchain⟩ := Option.map_eq_some_iff.mp hmanager
    cases heq
    cases hchain
    exact ⟨h.books.cancelAndRollback hphase, ⟨h.logged.base, h.logged.index⟩,
      Nat.le_trans (Nat.le_of_lt (h.found hphase).1) h.seen, CanonicalChain.tip_rollback hrollback⟩
  · cases hstep

theorem Sound.finalize (h : s.Sound m) {below : Nat} (hstep : s.finalize debug below = some s') :
    s'.Sound m := by
  unfold Ledger.finalize at hstep
  split at hstep
  · have hold : (⟨s.manager.chain.finalize s.books.root.index, s.manager.base, s.manager.entries,
        s.manager.index⟩ : CanonicalChainManager CanonicalChain M).Logged := ⟨h.logged.base, h.logged.index⟩
    obtain ⟨hlogged, hseen⟩ := hold.dropEntries s.books.root.index
    have hchain := congrArg CanonicalChainManager.chain
      (CanonicalChainManager.dropEntries_chain s.books.root.index (s.manager.chain.finalize s.books.root.index)
        s.manager.chain s.manager.base s.manager.index s.manager.entries)
    cases hstep
    refine ⟨{ h.books with }, hlogged, Nat.le_trans h.seen (Nat.le_of_eq hseen.symm), ?_⟩
    exact ((congrArg CanonicalChain.tip hchain).trans (CanonicalChain.tip_finalize _)).trans h.tip
  · cases hstep

theorem step_sound (h : s.Sound m) {e : Event M} (hcontract : s.Contract debug m e)
    (hstep : s.step debug supportsRestore e = some s') : s'.Sound m := by
  cases e with
  | schedule metadata => exact h.schedule hcontract hstep
  | finalize below => exact h.finalize hstep
  | cancel => exact h.cancel hstep
  | books e =>
    obtain ⟨b, hb, heq⟩ := Option.map_eq_some_iff.mp hstep
    cases heq
    have hlast := (Books.step_frame hb).2
    exact ⟨h.books.step hcontract hb, h.logged, hlast ▸ h.seen, hlast ▸ h.tip⟩

/-- The metadata a batch was scheduled with; the default before the first. -/
def metadataOf (m : Nat → M) (t : Nat) : M := if t = 0 then default else m t

omit [BatchMetadata M] in
/-- The lookup is right if the entry is still somewhere, and it is while the cursor
has not reached it. -/
theorem Sound.lookup_iff (h : s.Sound m) {t : Nat} (ht : t = 0 ∨ t ∈ s.books.line) :
    (s.books.lookupCheckpoint t).metadata = metadataOf m t ↔
      t = 0 ∨ s.books.cursor < t ∨ (∃ cp ∈ s.books.pendingBatches, cp.index = t) ∨
        s.books.metadata.get t ≠ none ∨ m t = default := by
  unfold Books.lookupCheckpoint metadataOf
  by_cases hzero : t = 0
  · rw [if_pos hzero, if_pos hzero]
    exact iff_of_true rfl (.inl hzero)
  rw [if_neg hzero, if_neg hzero]
  cases hfound : Books.searchPending t s.books.pendingBatches with
  | some cp =>
    have ⟨hmem, hindex⟩ := Books.searchPending_eq_some hfound
    refine iff_of_true ?_ (.inr (.inr (.inl ⟨cp, hmem, hindex⟩)))
    rw [← hindex]
    exact (h.books.pending cp hmem).1
  | none =>
    have hpending : ¬ ∃ cp ∈ s.books.pendingBatches, cp.index = t := fun hmem => by
      have ⟨cp, hcp⟩ := Books.searchPending_isSome h.books.sorted hmem
      rw [hfound] at hcp
      cases hcp
    change s.books.storedMetadata t = m t ↔ _
    unfold Books.storedMetadata
    cases hdisk : s.books.metadata.get t with
    | some x => exact iff_of_true (h.books.stored t x hdisk) (.inr (.inr (.inr (.inl (Option.some_ne_none x)))))
    | none =>
      have hkept := (h.books.covered t (ht.resolve_left hzero)).resolve_left hpending
      have hreach : t ≤ s.books.reach := hkept.resolve_left fun hne => hne hdisk
      have hle := Nat.le_trans hreach h.books.paced.reach_le_cursor
      constructor
      · intro hdefault
        exact .inr (.inr (.inr (.inr hdefault.symm)))
      · rintro (h | h | h | h | h)
        · exact absurd h hzero
        · omega
        · exact absurd h hpending
        · exact absurd rfl h
        · exact h.symm

/-- The step that takes a rollback on. -/
def next : Phase M → Option (Event M)
  | .idle => none
  | .paused _ => some (.books .readCursor)
  | .conflicted => some (.books .resetCeiling)
  | .cleared _ => some (.books .lookup)
  | .found _ => some .cancel
  | .rolling _ => some (.books .executeRollback)
  | .executed _ => some (.books .unpause)

/-- The checkpoint a rollback has looked up. -/
def lookedUp : Phase M → Option (Checkpoint M)
  | .found target | .rolling target | .executed target => some target
  | _ => none

omit [BatchMetadata M] in
theorem phase_books_step {b b' : Books M} {e : Books.Event} (hphase : b.phase ≠ .idle)
    (hstep : b.step e = some b') : b'.phase = b.phase ∨ next b.phase = some (.books e) := by
  cases e <;>
    simp only [Books.step, Books.rollbackTo, Books.readCursor, Books.resetCeiling, Books.lookup,
      Books.executeRollback, Books.unpause, Books.write, Books.flush, Books.commitDone,
      Books.range, Books.announce, Books.checkCeiling, Books.advanceRoot, Books.prune] at hstep <;>
    grind [next]

/-- The other threads do not move a rollback. -/
theorem phase_step {e : Event M} (hphase : s.books.phase ≠ .idle)
    (hstep : s.step debug supportsRestore e = some s') :
    s'.books.phase = s.books.phase ∨ next s.books.phase = some e := by
  cases e with
  | schedule metadata =>
    rw [step, schedule] at hstep
    split at hstep
    · next hidle => exact absurd hidle hphase
    · cases hstep
  | finalize below =>
    rw [step, finalize] at hstep
    split at hstep
    · next hidle => exact absurd hidle hphase
    · cases hstep
  | cancel =>
    rw [step, Ledger.cancel] at hstep
    split at hstep
    · next target hfound =>
      rw [hfound]
      exact .inr rfl
    · cases hstep
  | books e =>
    obtain ⟨b, hb, heq⟩ := Option.map_eq_some_iff.mp hstep
    cases heq
    exact phase_books_step hphase hb

/-- A rollback waits for nothing but the callback of a commit. -/
theorem Sound.next_enabled (h : s.Sound m) {e : Event M} (hnext : next s.books.phase = some e) :
    (∃ s', s.step debug supportsRestore e = some s') ∨
      ∃ w s', s.step debug supportsRestore (.books .commitDone) = some w ∧ w.books.phase = s.books.phase ∧
        w.step debug supportsRestore e = some s' := by
  cases hphase : s.books.phase with
  | idle =>
    rw [hphase] at hnext
    cases hnext
  | found target =>
    rw [hphase] at hnext
    cases hnext
    have hle : target.index ≤ s.manager.chain.tip := by
      rw [h.tip]
      exact Nat.le_of_lt (h.found hphase).1
    obtain ⟨chain, hchain⟩ := CanonicalChain.rollback_isSome debug hle
    refine .inl ⟨⟨{ s.manager with chain := chain }, s.books.cancelAndRollback target⟩, ?_⟩
    simp only [step, Ledger.cancel, hphase, CanonicalChainManager.rollback, CanonicalChain.oracle, hchain,
      Option.map_some]
  | rolling target =>
    rw [hphase] at hnext
    cases hnext
    cases hflushed : s.books.flushed with
    | none =>
      simp only [step, Books.step, Books.executeRollback, hphase, hflushed, Option.map_some]
      exact .inl ⟨_, rfl⟩
    | some x =>
      simp only [step, Books.step, Books.commitDone, Books.executeRollback, hphase, hflushed, Option.map_some]
      exact .inr ⟨_, _, rfl, rfl, rfl⟩
  | paused t | conflicted | cleared t | executed target =>
    rw [hphase] at hnext
    cases hnext
    simp only [step, Books.step, Books.readCursor, Books.resetCeiling, Books.lookup, Books.unpause, hphase,
      Option.map_some]
    exact .inl ⟨_, rfl⟩

/-- The checkpoint that has been looked up is the one that is returned. -/
theorem Sound.lookedUp_step (h : s.Sound m) {target : Checkpoint M} {e : Event M}
    (htarget : lookedUp s.books.phase = some target) (hstep : s.step debug supportsRestore e = some s') :
    lookedUp s'.books.phase = some target ∨ s'.books.phase = .idle ∧
      s'.books.returned = some (.ok target) ∧ s'.books.lastProcessed = target := by
  have hphase : s.books.phase ≠ .idle := fun hidle => by
    rw [hidle] at htarget
    cases htarget
  obtain hsame | hnext := phase_step hphase hstep
  · exact .inl (hsame ▸ htarget)
  cases hcase : s.books.phase with
  | idle | paused | conflicted | cleared =>
    rw [hcase] at htarget
    cases htarget
  | found checkpoint =>
    rw [hcase] at htarget hnext
    cases htarget
    cases hnext
    simp only [step, Ledger.cancel, hcase] at hstep
    obtain ⟨manager, _, heq⟩ := Option.map_eq_some_iff.mp hstep
    cases heq
    exact .inl rfl
  | rolling checkpoint =>
    rw [hcase] at htarget hnext
    cases htarget
    cases hnext
    simp only [step, Books.step, Books.executeRollback, hcase] at hstep
    obtain ⟨b, hb, heq⟩ := Option.map_eq_some_iff.mp hstep
    cases heq
    split at hb
    · next hrolling _ =>
      cases hrolling
      cases hb
      exact .inl rfl
    · cases hb
  | executed checkpoint =>
    have hlast := h.books.phased
    rw [Books.Phased, hcase] at hlast
    rw [hcase] at htarget hnext
    cases htarget
    cases hnext
    simp only [step, Books.step, Books.unpause, hcase, Option.map_some] at hstep
    cases hstep
    exact .inr ⟨rfl, rfl, hlast⟩

/-- In every interleaving a conflict changes nothing, and otherwise `rollback_to`
returns the checkpoint of its target, with the metadata the batch was scheduled with if
and only if, when it is looked up, the batch is still pending or on disk or the cursor is
below it. The call always gets to its end: only its own steps take it on, and each is
enabled, the rollback in the write worker after the callback of a commit. -/
theorem rollback_to_returns_checkpoint {events : List (Event M)}
    (honest : Runs.Along (step debug supportsRestore) (Contract debug m) {} events)
    (hrun : Runs.run (step debug supportsRestore) {} events = some s) :
    (∀ t, s.books.phase = .idle → t < s.books.lastProcessed.index → s.books.ceiling = none ∧
      s.step debug supportsRestore (.books (.rollbackTo t)) =
        some { s with books := { s.books with ceiling := some t, phase := .paused t } }) ∧
    (∀ e s', s.books.phase ≠ .idle → s.step debug supportsRestore e = some s' →
      s'.books.phase = s.books.phase ∨ next s.books.phase = some e) ∧
    (∀ e, next s.books.phase = some e → (∃ s', s.step debug supportsRestore e = some s') ∨
      ∃ w s', s.step debug supportsRestore (.books .commitDone) = some w ∧ w.books.phase = s.books.phase ∧
        w.step debug supportsRestore e = some s') ∧
    (∀ t s', s.books.phase = .paused t → s.step debug supportsRestore (.books .readCursor) = some s' →
      s' = { s with books := { s.books with
        phase := if s.books.cursor ≤ t then .cleared t else .conflicted } }) ∧
    (∀ s', s.books.phase = .conflicted → s.step debug supportsRestore (.books .resetCeiling) = some s' →
      s' = { s with books := { s.books with
        ceiling := none, phase := .idle, returned := some (.error .pruningConflict) } }) ∧
    (∀ t s', s.books.phase = .cleared t → s.step debug supportsRestore (.books .lookup) = some s' →
      ∃ target, s' = { s with books := { s.books with phase := .found target } } ∧ target.index = t ∧
        (target.metadata = metadataOf m t ↔
          t = 0 ∨ s.books.cursor < t ∨ (∃ cp ∈ s.books.pendingBatches, cp.index = t) ∨
            s.books.metadata.get t ≠ none ∨ m t = default)) ∧
    (∀ target e s', lookedUp s.books.phase = some target → s.step debug supportsRestore e = some s' →
      lookedUp s'.books.phase = some target ∨ s'.books.phase = .idle ∧
        s'.books.returned = some (.ok target) ∧ s'.books.lastProcessed = target) := by
  have h : s.Sound m := Runs.invariant (fun h hcontract hstep => step_sound h hcontract hstep)
    (sound_init m) honest hrun
  refine ⟨fun t hidle hlt => ⟨?_, ?_⟩, fun e s' => phase_step, fun e => h.next_enabled, fun t s' hphase hstep => ?_,
    fun s' hphase hstep => ?_, fun t s' hphase hstep => ?_, fun target e s' => h.lookedUp_step⟩
  · have hfree := h.books.phased
    rwa [Books.Phased, hidle] at hfree
  · simp only [step, Books.step, Books.rollbackTo, hidle, if_pos hlt, Option.map_some]
  · simp only [step, Books.step, Books.readCursor, hphase, Option.map_some] at hstep
    exact (Option.some.inj hstep).symm
  · simp only [step, Books.step, Books.resetCeiling, hphase, Option.map_some] at hstep
    exact (Option.some.inj hstep).symm
  · have hphased := h.books.phased
    rw [Books.Phased, hphase] at hphased
    simp only [step, Books.step, Books.lookup, hphase, Option.map_some] at hstep
    exact ⟨s.books.lookupCheckpoint t, (Option.some.inj hstep).symm, s.books.index_lookupCheckpoint t,
      h.lookup_iff hphased.2.2.2⟩

instance [DecidableEq M] (s : Ledger M) : (e : Event M) → Decidable (s.Contract debug m e)
  | .schedule _ => inferInstanceAs (Decidable (∀ _ ∈ Option.map _ _, _))
  | .books (.rollbackTo _) => inferInstanceAs (Decidable (_ ∨ _))
  | .finalize _ | .cancel | .books .readCursor | .books .resetCeiling | .books .lookup
  | .books .executeRollback | .books .unpause | .books (.write _) | .books .flush | .books .commitDone
  | .books .range | .books .announce | .books .checkCeiling | .books .advanceRoot | .books .prune => isTrue trivial

namespace Sample

/-- Blocks in a line. -/
def block (n : Nat) : NumberedBlock := ⟨n, n - 1⟩

/-- A rollback to its end. -/
def rollback (target : Nat) : List (Event NumberedBlock) :=
  [.books (.rollbackTo target), .books .readCursor, .books .lookup, .cancel, .books .executeRollback,
    .books .unpause]

/-- Block 1 has committed, block 2 is in flight, and a pass gets ready to delete block 1. -/
def passing : List (Event NumberedBlock) :=
  [.schedule (block 1), .books .flush, .books .commitDone, .schedule (block 2), .finalize 2, .books .range,
    .books .announce, .books .checkCeiling, .books .advanceRoot]

/-- The pass ends before the rollback starts. -/
def prunedTarget : List (Event NumberedBlock) := passing ++ .books .prune :: rollback 1

/-- The pass ends between the check of the cursor and the lookup. -/
def prunedMeanwhile : List (Event NumberedBlock) :=
  passing ++ (rollback 1).take 2 ++ .books .prune :: (rollback 1).drop 2

/-- The callers keep the contract, and block 1 comes back with default metadata. -/
def LosesMetadata (events : List (Event NumberedBlock)) : Prop :=
  Runs.Along (step true true) (Contract true block) {} events ∧
    ∃ s, Runs.run (step true true) {} events = some s ∧ s.books.returned = some (.ok ⟨1, default⟩)

theorem losesMetadata_of_run {events : List (Event NumberedBlock)}
    (halong : Runs.Along (step true true) (Contract true block) {} events)
    (hrun : (Runs.run (step true true) {} events).map (fun s => s.books.returned.bind Except.toOption) =
      some (some ⟨1, default⟩)) : LosesMetadata events := by
  obtain ⟨s, hs, hreturned⟩ := Option.map_eq_some_iff.mp hrun
  obtain ⟨result, hresult, hok⟩ := Option.bind_eq_some_iff.mp hreturned
  rw [toOption_eq_some] at hok
  exact ⟨halong, s, hs, hok ▸ hresult⟩

theorem pruned_target_loses_metadata :
    LosesMetadata prunedTarget ∧ LosesMetadata prunedMeanwhile ∧ block 1 ≠ default :=
  ⟨losesMetadata_of_run (by decide +kernel) (by decide +kernel),
    losesMetadata_of_run (by decide +kernel) (by decide +kernel), by decide⟩

/-- Block 1 is pending when it becomes the target. -/
def pendingTarget : List (Event NumberedBlock) := [.schedule (block 1), .schedule (block 2)]

/-- It is looked up with its metadata, and what has been looked up is returned. -/
theorem pending_target_returns :
    (∃ s s' target, Runs.run (step true true) {} (pendingTarget ++ (rollback 1).take 2) = some s ∧
      s.step true true (.books .lookup) = some s' ∧ lookedUp s'.books.phase = some target ∧
      target.index = 1 ∧ target.metadata = block 1) ∧
    ∃ s s' target, Runs.run (step true true) {} (pendingTarget ++ (rollback 1).take 5) = some s ∧
      lookedUp s.books.phase = some target ∧ s.step true true (.books .unpause) = some s' ∧
      s'.books.returned = some (.ok target) ∧ s'.books.lastProcessed = target := by
  have hlookup : (Runs.run (step true true) {} (pendingTarget ++ (rollback 1).take 2)).map
      (fun s => decide (s.books.phase = .cleared 1 ∧ s.books.cursor = 0)) = some true := by
    decide +kernel
  have hunpause : ((Runs.run (step true true) {} (pendingTarget ++ (rollback 1).take 5)).bind fun s =>
      (s.step true true (.books .unpause)).map fun s' =>
        decide (s.books.phase = .executed ⟨1, block 1⟩ ∧ s'.books.phase = .idle)) = some true := by
    decide +kernel
  obtain ⟨s, hs, hfacts⟩ := Option.map_eq_some_iff.mp hlookup
  obtain ⟨hcleared, hcursor⟩ := of_decide_eq_true hfacts
  obtain ⟨r, hr, hnext⟩ := Option.bind_eq_some_iff.mp hunpause
  obtain ⟨r', hr', hfacts⟩ := Option.map_eq_some_iff.mp hnext
  obtain ⟨hexecuted, hidle⟩ := of_decide_eq_true hfacts
  have hfound := rollback_to_returns_checkpoint (m := block) (by decide +kernel) hs
  have hreturns := rollback_to_returns_checkpoint (m := block) (by decide +kernel) hr
  obtain ⟨s', hs'⟩ : ∃ s', s.step true true (.books .lookup) = some s' := by
    simp only [step, Books.step, Books.lookup, hcleared, Option.map_some]
    exact ⟨_, rfl⟩
  obtain ⟨target, heq, hindex, hiff⟩ := hfound.2.2.2.2.2.1 1 s' hcleared hs'
  refine ⟨⟨s, s', target, hs, hs', heq ▸ rfl, hindex, hiff.mpr (.inr (.inl (by omega)))⟩,
    r, r', ⟨1, block 1⟩, hr, by rw [hexecuted]; rfl, hr', ?_⟩
  obtain hmore | ⟨_, hreturned, hlast⟩ :=
    hreturns.2.2.2.2.2.2 ⟨1, block 1⟩ _ r' (by rw [hexecuted]; rfl) hr'
  · rw [hidle] at hmore
    cases hmore
  · exact ⟨hreturned, hlast⟩

end Sample

end Ledger

end Vprogs.Scheduler
