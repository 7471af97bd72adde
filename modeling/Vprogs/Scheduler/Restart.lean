import Vprogs.Canonical.PlainSet
import Vprogs.Canonical.Replay
import Vprogs.Scheduler.LedgerBounds
import Vprogs.Scheduler.RollbackTo

/-!
Restarts. Only committed batches leave metadata on disk, and the last of them becomes
the tip. The chain that is reopened is the one that was left if and only if every id
from the root up to the last one used is on disk and that one is the tip.
-/
namespace Vprogs.Scheduler

open Canonical CanonicalChainManager BatchMetadata

namespace Ledger

variable {M : Type} [Inhabited M] [BatchMetadata M] {m : Nat → M} {debug supportsRestore : Bool}
variable {s s' : Ledger M}

/-- What else a history keeps to: a block names the last processed one as its parent, no
return moves the hot zone back, finality stays behind the last processed block, and a
rollback to genesis does not finish within a pass of the pruning thread. -/
def Steady (s : Ledger M) : Event M → Prop
  | .schedule metadata => parentId metadata = s.books.lastProcessed.index ∧
      ∀ id ∈ s.manager.index (blockHash metadata), Bucket.locate s.manager.seen ≤ Bucket.locate id
  | .finalize below => below ≤ s.books.lastProcessed.index
  | .books .executeRollback => s.books.lastProcessed.index = 0 → s.books.pruner = .idle
  | _ => True

/-- An event that keeps to both. -/
def Orderly (debug : Bool) (m : Nat → M) (s : Ledger M) (e : Event M) : Prop :=
  s.Contract debug m e ∧ s.Steady e

/-- The chain holds the branch that was scheduled, and the log its metadata. -/
structure Tracked (m : Nat → M) (s : Ledger M) : Prop where
  sound : s.Sound m
  numbered : s.manager.Numbered m
  within : s.books.Within s.manager.base s.manager.seen
  live : s.manager.base ≤ max 1 s.manager.seen
  descends : Descends m s.books.line.reverse
  last : s.books.lastProcessed.index = s.books.line.reverse.headD 0
  agrees : ∃ bound ≤ s.manager.base, Agrees s.manager.chain s.books.line.toFinset s.manager.seen bound

theorem tracked_init (m : Nat → M) :
    Tracked m ({} : Ledger M) where
  sound := sound_init m
  numbered := ⟨Nat.one_pos, rfl, fun _ _ => iff_of_false (fun h => by cases h) fun ⟨hbase, hid, _⟩ => by
    exact absurd hbase (Nat.not_le.mpr hid)⟩
  within := Books.within_empty
  live := Nat.le_refl _
  descends := trivial
  last := rfl
  agrees := ⟨0, Nat.zero_le _, agrees_empty⟩

theorem Tracked.schedule (h : s.Tracked m) {metadata : M}
    (hcontract : s.Contract debug m (.schedule metadata)) (hsteady : s.Steady (.schedule metadata))
    (hstep : s.schedule debug supportsRestore metadata = some s') : s'.Tracked m := by
  have hsound := h.sound.schedule hcontract hstep
  unfold Ledger.schedule at hstep
  split at hstep
  · obtain ⟨⟨outcome, manager⟩, happend, heq⟩ := Option.map_eq_some_iff.mp hstep
    obtain ⟨hmetadata, habove⟩ := h.sound.append_above hcontract happend
    have hnumbered := h.numbered.append hmetadata happend
    have htip : s.manager.chain.tip < outcome.id := h.sound.tip ▸ habove
    have hchain := append_chain (O := CanonicalChain.oracle debug) htip happend
    obtain ⟨hbase, hlow, hseen⟩ := h.numbered.append_bounds happend
    have hforward : Bucket.locate s.manager.seen ≤ Bucket.locate outcome.id := by
      rw [append_outcome happend, nextOutcome]
      cases hindex : s.manager.index (blockHash metadata) with
      | some id => exact hsteady.2 id hindex
      | none => exact CanonicalChain.locate_mono (Nat.sub_le _ _)
    obtain ⟨bound, hbound, hagrees⟩ := h.agrees
    cases heq
    refine ⟨hsound, hnumbered, ?_, ?_, ?_, ?_, bound, ?_, ?_⟩
    · change Books.Within manager.base manager.seen _
      rw [hbase, hseen]
      exact (h.within.mono (Nat.le_max_left _ _)).nextCheckpoint supportsRestore metadata
        (Nat.lt_of_le_of_lt (Nat.zero_le _) habove) hlow (Nat.le_max_right _ _)
    · change manager.base ≤ max 1 manager.seen
      rw [hbase, hseen]
      omega
    · change Descends m (s.books.line ++ [outcome.id]).reverse
      rw [List.reverse_concat]
      exact ⟨by rw [← hmetadata, hsteady.1, h.last], h.last ▸ habove, h.descends⟩
    · change outcome.id = (s.books.line ++ [outcome.id]).reverse.headD 0
      rw [List.reverse_concat]
      rfl
    · change bound ≤ manager.base
      rw [hbase]
      exact hbound
    · change Agrees manager.chain (s.books.line ++ [outcome.id]).toFinset manager.seen bound
      rw [hseen, List.toFinset_append, Finset.union_comm]
      exact hagrees.append htip hforward hchain
  · cases hstep

theorem Tracked.cancel (h : s.Tracked m) (hstep : s.cancel debug = some s') : s'.Tracked m := by
  have hsound := h.sound.cancel hstep
  unfold Ledger.cancel at hstep
  split at hstep
  · next target hphase =>
    obtain ⟨manager, hmanager, heq⟩ := Option.map_eq_some_iff.mp hstep
    obtain ⟨chain, hchain, hmanager⟩ := Option.map_eq_some_iff.mp hmanager
    have htarget := (h.sound.found hphase).2
    obtain ⟨bound, hbound, hagrees⟩ := h.agrees
    cases heq
    cases hmanager
    have hreverse : (s.books.line.filter fun id => decide (id ≤ target.index)).reverse =
        s.books.line.reverse.filter fun id => decide (id ≤ target.index) := List.filter_reverse.symm
    refine ⟨hsound, ⟨h.numbered.base, h.numbered.entries, h.numbered.index⟩,
      h.within.cancelAndRollback target, h.live, ?_, ?_, bound, hbound, ?_⟩
    · change Descends m (s.books.line.filter fun id => decide (id ≤ target.index)).reverse
      rw [hreverse]
      exact h.descends.filter_le target.index
    · change target.index = (s.books.line.filter fun id => decide (id ≤ target.index)).reverse.headD 0
      rw [hreverse, h.descends.headD_filter]
      exact htarget.imp id List.mem_reverse.mpr
    · change Agrees chain (s.books.line.filter fun id => decide (id ≤ target.index)).toFinset
        s.manager.seen bound
      rw [List.toFinset_filter]
      simp only [decide_eq_true_eq]
      exact hagrees.rollback (htarget.imp id List.mem_toFinset.mpr) hchain
  · cases hstep

theorem Tracked.finalize (h : s.Tracked m) {below : Nat} (hbelow : below ≤ s.books.lastProcessed.index)
    (hstep : s.finalize debug below = some s') : s'.Tracked m := by
  have hsound := h.sound.finalize hstep
  unfold Ledger.finalize at hstep
  split at hstep
  · have hold : (⟨s.manager.chain.finalize s.books.root.index, s.manager.base, s.manager.entries,
        s.manager.index⟩ : CanonicalChainManager CanonicalChain M).Numbered m :=
      ⟨h.numbered.base, h.numbered.entries, h.numbered.index⟩
    have ⟨hnumbered, hbase⟩ := hold.dropEntries s.books.root.index
    have ⟨_, hseen⟩ := Logged.dropEntries s.books.root.index
      (⟨hold.base, h.sound.logged.index⟩ : (⟨s.manager.chain.finalize s.books.root.index, s.manager.base,
        s.manager.entries, s.manager.index⟩ : CanonicalChainManager CanonicalChain M).Logged)
    have hchain := congrArg CanonicalChainManager.chain
      (dropEntries_chain s.books.root.index (s.manager.chain.finalize s.books.root.index)
        (s.manager.chain.finalize s.books.root.index) s.manager.base s.manager.index s.manager.entries)
    generalize hdropped : CanonicalChainManager.dropEntries s.books.root.index
      (s.manager.chain.finalize s.books.root.index) s.manager.base s.manager.index s.manager.entries = manager at *
    have hmanager : s.manager.finalize (CanonicalChain.oracle debug) s.books.root.index = manager := hdropped
    rw [hmanager] at hstep
    have hroot := h.within.root
    have hrooted := h.within.rooted
    have hlive := h.live
    have hlast := h.sound.seen
    have hpos := h.numbered.base
    change manager.seen = s.manager.seen at hseen
    replace hbase : manager.base = max s.manager.base s.books.root.index := by
      rw [hbase]
      change _ ≤ s.manager.base + s.manager.entries.length - 1 at hroot
      omega
    have ⟨bound, hbound, hagrees⟩ := h.agrees
    cases hstep
    refine ⟨hsound, hnumbered, ?_, ?_, h.descends, h.last, max bound s.books.root.index, ?_, ?_⟩
    · change Books.Within manager.base manager.seen _
      rw [hbase, hseen]
      refine { h.within with threshold := ?_, rooted := fun hne => ?_ }
      · exact Nat.max_le.mpr ⟨h.within.threshold, Nat.le_trans hbelow hlast⟩
      · exact Nat.max_le.mpr ⟨hrooted hne, Nat.le_refl _⟩
    · change manager.base ≤ max 1 manager.seen
      omega
    · change _ ≤ manager.base
      omega
    · change Agrees manager.chain _ manager.seen _
      rw [hchain, hseen]
      exact hagrees.finalize s.books.root.index
  · cases hstep

theorem step_tracked (h : s.Tracked m) {e : Event M} (horderly : s.Orderly debug m e)
    (hstep : s.step debug supportsRestore e = some s') : s'.Tracked m := by
  obtain ⟨hcontract, hsteady⟩ := horderly
  cases e with
  | schedule metadata => exact h.schedule hcontract hsteady hstep
  | finalize below => exact h.finalize hsteady hstep
  | cancel => exact h.cancel hstep
  | books e =>
    have hsound := step_sound h.sound hcontract hstep
    obtain ⟨b, hb, heq⟩ := Option.map_eq_some_iff.mp hstep
    have hwithin := h.within.step h.sound.books (fun he => by rw [he] at hsteady; exact hsteady) hb
    obtain ⟨hline, hlast⟩ := Books.step_frame hb
    cases heq
    refine ⟨hsound, h.numbered, hwithin, h.live, ?_, ?_, ?_⟩
    · exact hline.symm ▸ h.descends
    · rw [hline, hlast]
      exact h.last
    · rw [hline]
      exact h.agrees

/-! ### The reopened chain -/

/-- The store reopens, in every build, to a chain that answers for the live ids as the
one before, and the next id has never been used. -/
def Reopens (s : Ledger M) : Prop :=
  ∀ debug, ∃ m', CanonicalChainManager.new debug .empty s.books.metadata.entries = some m' ∧
    m'.chain.tip = s.manager.chain.tip ∧
    (∀ hash id, s.manager.index hash = some id → s.books.root.index ≤ id → m'.index hash = some id) ∧
    (∀ id, id ∈ s.books.written ∨ s.books.metadata.get id ≠ none → id < m'.base + m'.entries.length) ∧
    ∀ id, s.books.root.index ≤ id →
      m'.chain.isCanonical m'.chain.snapshot id = s.manager.chain.isCanonical s.manager.chain.snapshot id

/-- The disk holds every id from the root up to the last one used, which is the tip. -/
def Complete (s : Ledger M) : Prop :=
  s.manager.chain.tip = s.manager.seen ∧ ∃ lo ≤ max 1 s.books.root.index,
    s.books.metadata.entries.map Prod.fst = List.range' lo (s.manager.seen + 1 - lo)

theorem Tracked.live_index (h : s.Tracked m) {id : Nat} (hid : s.manager.base ≤ id)
    (hseen : id ≤ s.manager.seen) : s.manager.index (blockHash (m id)) = some id := by
  refine h.numbered.index_eq hid ?_
  change id ≤ s.manager.base + s.manager.entries.length - 1 at hseen
  have := h.numbered.base
  omega

theorem Tracked.stored_mem (h : s.Tracked m) {e : Nat × M} (he : e ∈ s.books.metadata.entries) :
    e.2 = m e.1 ∧ 0 < e.1 ∧ e.1 ≤ s.manager.seen := by
  have hget := Column.get_eq_some.mpr he
  exact ⟨h.sound.books.stored _ _ hget, h.within.stored _ _ hget⟩

theorem Tracked.complete_of_reopens (h : s.Tracked m) (hreopens : s.Reopens) : s.Complete := by
  have ⟨r, hnew, htip, hindex, _⟩ := hreopens true
  have hroot := h.within.root
  have hlive := h.live
  have hpos := h.numbered.base
  by_cases hused : 0 < s.manager.seen
  · -- the last id used is live, so it is on disk
    have hlast := hindex _ _ (h.live_index (by omega) (Nat.le_refl _)) hroot
    have hne : s.books.metadata.entries ≠ [] := by
      intro hempty
      rw [hempty] at hnew
      cases hnew
      cases hlast
    have ⟨lo, hids, hlog, hend⟩ := new_eq_some hne hnew
    have hstored : ∀ id, s.manager.base ≤ id → s.books.root.index ≤ id → id ≤ s.manager.seen →
        lo ≤ id ∧ id < lo + s.books.metadata.entries.length := by
      intro id hbase hid hle
      have hfound := hindex _ _ (h.live_index hbase hle) hid
      rw [hlog] at hfound
      have ⟨_, hmem, _⟩ := mem_of_logIndex hfound
      have hfst := List.mem_map_of_mem (f := Prod.fst) hmem
      rw [hids] at hfst
      exact List.mem_range'_1.mp hfst
    have ⟨hlow, hhigh⟩ := hstored _ (by omega) hroot (Nat.le_refl _)
    have ⟨metadata, hgetLast⟩ := getLast?_of_fst_range' hne hids
    have ⟨_, _, hbound⟩ := h.stored_mem (List.mem_of_getLast? hgetLast)
    have hlo : 0 < lo := by
      have hfst : lo ∈ s.books.metadata.entries.map Prod.fst := by
        rw [hids]
        exact List.mem_range'_1.mpr ⟨Nat.le_refl _, by omega⟩
      have ⟨e, he, heq⟩ := List.mem_map.mp hfst
      exact heq ▸ (h.stored_mem he).2.1
    have hlength : s.books.metadata.entries.length = s.manager.seen + 1 - lo := by
      change lo + (s.books.metadata.entries.length - 1) ≤ s.manager.seen at hbound
      omega
    have htip' : s.manager.chain.tip = s.manager.seen := by
      rw [← htip, hend hlo]
      omega
    refine ⟨htip', lo, ?_, by rw [hids, hlength]⟩
    have hrooted : s.books.root.index ≠ 0 := by
      intro hzero
      have hline := h.within.unrooted hzero
      have hnone := h.last
      rw [hline] at hnone
      have := h.sound.tip
      change s.books.lastProcessed.index = 0 at hnone
      omega
    have := (hstored _ (h.within.rooted hrooted) (Nat.le_refl _) hroot).1
    omega
  · have hzero : s.manager.seen = 0 := by omega
    have hempty : s.books.metadata.entries = [] := by
      refine List.eq_nil_iff_forall_not_mem.mpr fun e he => ?_
      have := (h.stored_mem he).2
      omega
    have hle := h.sound.seen
    refine ⟨?_, 1, by omega, by rw [hempty, hzero]; rfl⟩
    rw [h.sound.tip]
    omega

theorem Tracked.reopens_of_complete (h : s.Tracked m) (hcomplete : s.Complete) : s.Reopens := by
  intro debug
  have ⟨htip, lo, hlo, hids⟩ := hcomplete
  have ⟨bound, hbound, hagrees⟩ := h.agrees
  have hroot := h.within.root
  by_cases hused : 0 < s.manager.seen
  · have hbranch := h.descends
    have hlast := h.last
    rw [← h.sound.tip, htip] at hlast
    cases hline : s.books.line.reverse with
    | nil =>
      rw [hline] at hlast
      change s.manager.seen = 0 at hlast
      omega
    | cons t rest =>
      rw [hline] at hlast hbranch
      change s.manager.seen = t at hlast
      have hrooted : s.books.root.index ≠ 0 := fun hzero => by
        rw [h.within.unrooted hzero] at hline
        cases hline
      have hmem : ∀ id, id ∈ s.books.metadata.entries.map Prod.fst ↔ lo ≤ id ∧ id < lo + (t + 1 - lo) := by
        intro id
        rw [hids, hlast]
        exact List.mem_range'_1
      have hpos : 0 < lo := by
        have ⟨e, he, heq⟩ := List.mem_map.mp ((hmem lo).mpr ⟨Nat.le_refl _, by omega⟩)
        exact heq ▸ (h.stored_mem he).2.1
      rw [hlast] at hids
      have ⟨r, hnew, hnext, hindex, hrtip, hcanonical⟩ := new_spec debug .empty hpos (by omega) hids
        (fun e he => (h.stored_mem he).1) hbranch
      refine ⟨r, hnew, by rw [hrtip, htip, hlast], fun hash id hid hge => ?_, fun id hid => ?_, fun id hid => ?_⟩
      · have ⟨hlow, hhigh, hhash⟩ := (h.numbered.index hash id).mp hid
        have hseen := h.sound.logged.index hash id hid
        have ⟨e, he, heq⟩ := List.mem_map.mp ((hmem id).mpr ⟨by omega, by omega⟩)
        rw [hindex, ← hhash]
        have hvalue := (h.stored_mem he).1
        rw [heq] at hvalue
        have hentry : (id, m id) ∈ s.books.metadata.entries := by
          rw [← hvalue, ← heq]
          exact he
        refine logIndex_of_last s.books.metadata.sorted hentry fun e' he' hsame => ?_
        -- the live log has one id for the hash
        by_contra hlt
        have ⟨hvalue', _, hle⟩ := h.stored_mem he'
        have hlive := h.live_index (show s.manager.base ≤ e'.1 by omega) hle
        rw [← hvalue', hsame, hhash, hid] at hlive
        have := Option.some.inj hlive
        omega
      · rw [hnext, ← hlast]
        refine Nat.lt_succ_of_le ?_
        match hid with
        | .inl hwritten => exact h.within.written id hwritten
        | .inr hstored =>
          have ⟨x, hx⟩ := Option.ne_none_iff_exists'.mp hstored
          exact (h.within.stored id x hx).2
      · have hge : bound ≤ id := Nat.le_trans hbound (Nat.le_trans (h.within.rooted hrooted) hid)
        rw [hcanonical id (by omega), hagrees.isCanonical hge, ← hline]
        exact decide_eq_decide.mpr (List.mem_reverse.trans List.mem_toFinset.symm)
  · have hzero : s.manager.seen = 0 := by omega
    have hempty : s.books.metadata.entries = [] := by
      refine List.eq_nil_iff_forall_not_mem.mpr fun e he => ?_
      have := (h.stored_mem he).2
      omega
    refine ⟨{ chain := .empty }, by rw [hempty]; rfl, ?_, fun hash id hid _ => ?_, fun id hid => ?_,
      fun id _ => ?_⟩
    · rw [htip, hzero]
      rfl
    · have ⟨hlow, _, _⟩ := (h.numbered.index hash id).mp hid
      have := h.sound.logged.index hash id hid
      have := h.numbered.base
      omega
    · refine Nat.lt_succ_of_le ?_
      match hid with
      | .inl hwritten => exact hzero ▸ h.within.written id hwritten
      | .inr hstored =>
        have ⟨x, hx⟩ := Option.ne_none_iff_exists'.mp hstored
        exact hzero ▸ (h.within.stored id x hx).2
    · rw [CanonicalChain.laid_empty.isCanonical_eq, hagrees.laid.isCanonical_eq, htip, hzero]
      have hout : ¬ (0 < id ∧ id ≤ 0) := by omega
      change (decide (0 < id ∧ id ≤ 0) && _) = _
      rw [decide_eq_false hout, Bool.false_and, Bool.false_and]

/-- Whatever is still queued, the store reopens to the chain that was left if and only
if the disk holds every id from the root up to the last one used and that is the tip. -/
theorem reopens_iff_complete {events : List (Event M)}
    (horderly : Runs.Along (step debug supportsRestore) (Orderly debug m) {} events)
    (hrun : Runs.run (step debug supportsRestore) {} events = some s) : s.Reopens ↔ s.Complete :=
  have h : s.Tracked m := Runs.invariant (fun h horderly hstep => step_tracked h horderly hstep)
    (tracked_init m) horderly hrun
  ⟨h.complete_of_reopens, h.reopens_of_complete⟩

instance (s : Ledger M) : (e : Event M) → Decidable (s.Steady e)
  | .schedule _ => inferInstanceAs (Decidable (_ ∧ ∀ _ ∈ s.manager.index _, _))
  | .finalize _ => inferInstanceAs (Decidable (_ ≤ _))
  | .books .executeRollback =>
    match hpruner : s.books.pruner with
    | .idle => isTrue fun _ => hpruner
    | .ranged _ _ | .announced _ _ _ | .pruning _ _ | .deleting _ _ _ =>
      decidable_of_iff (s.books.lastProcessed.index ≠ 0)
        ⟨fun hne hzero => absurd hzero hne, fun h hzero => by cases hpruner.symm.trans (h hzero)⟩
  | .cancel | .books (.rollbackTo _) | .books .readCursor | .books .resetCeiling | .books .lookup
  | .books .unpause | .books (.write _) | .books .flush | .books .commitDone
  | .books .range | .books .announce | .books .checkCeiling | .books .advanceRoot | .books .prune => isTrue trivial

instance [DecidableEq M] (s : Ledger M) (e : Event M) : Decidable (s.Orderly debug m e) :=
  inferInstanceAs (Decidable (_ ∧ _))

namespace Sample

/-- Blocks 2 and 3 have block 1 as their parent. -/
def forked (n : Nat) : NumberedBlock := ⟨n, min 1 (n - 1)⟩

/-- Block 2 is canceled before it commits; block 3 takes its place. -/
def canceled : List (Event NumberedBlock) :=
  [.schedule (forked 1), .books .flush, .books .commitDone, .schedule (forked 2)] ++ rollback 1 ++
    [.books .flush, .schedule (forked 3), .books .flush, .books .commitDone]

/-- Block 2 commits and is taken back. -/
def takenBack : List (Event NumberedBlock) :=
  [.schedule (forked 1), .books .flush, .books .commitDone, .schedule (forked 2), .books .flush,
    .books .commitDone] ++ rollback 1

/-- The gap of a canceled id panics on the way up; a block that was taken back is the tip
again. -/
theorem reopens_to_another_chain :
    Runs.Along (step true true) (Orderly true forked) {} canceled ∧
    (∃ s, Runs.run (step true true) {} canceled = some s ∧
      s.books.queue = [] ∧ s.books.flushed = none ∧ s.books.phase = .idle ∧
      CanonicalChainManager.new true .empty s.books.metadata.entries = none) ∧
    Runs.Along (step true true) (Orderly true forked) {} takenBack ∧
    ∃ s r, Runs.run (step true true) {} takenBack = some s ∧
      s.books.queue = [] ∧ s.books.flushed = none ∧ s.books.phase = .idle ∧
      CanonicalChainManager.new true .empty s.books.metadata.entries = some r ∧
      s.manager.chain.tip = 1 ∧ r.chain.tip = 2 := by
  have hgap : (Runs.run (step true true) {} canceled).map
      (fun s => decide (s.books.queue = [] ∧ s.books.flushed = none ∧ s.books.phase = .idle ∧
        (CanonicalChainManager.new true .empty s.books.metadata.entries).isNone = true)) = some true := by
    decide +kernel
  have hback : ((Runs.run (step true true) {} takenBack).bind fun s =>
      (CanonicalChainManager.new true .empty s.books.metadata.entries).map fun r =>
        decide (s.books.queue = [] ∧ s.books.flushed = none ∧ s.books.phase = .idle ∧
          s.manager.chain.tip = 1 ∧ r.chain.tip = 2)) = some true := by
    decide +kernel
  have ⟨s, hs, hnone⟩ := Option.map_eq_some_iff.mp hgap
  have ⟨hqueue, hflushed, hphase, hnew⟩ := of_decide_eq_true hnone
  have ⟨s', hs', hsome⟩ := Option.bind_eq_some_iff.mp hback
  have ⟨r, hr, htips⟩ := Option.map_eq_some_iff.mp hsome
  have ⟨hqueue', hflushed', hphase', htip, htip'⟩ := of_decide_eq_true htips
  exact ⟨by decide +kernel, ⟨s, hs, hqueue, hflushed, hphase, Option.isNone_iff_eq_none.mp hnew⟩,
    by decide +kernel, s', r, hs', hqueue', hflushed', hphase', hr, htip, htip'⟩

/-- Block 2 commits, is taken back, and block 3 commits on block 1. -/
def replaced : List (Event NumberedBlock) :=
  takenBack ++ [.schedule (forked 3), .books .flush, .books .commitDone]

theorem replaced_reopens :
    ∃ s, Runs.run (step true true) {} replaced = some s ∧
      s.manager.chain.tip = 3 ∧ s.Reopens := by
  have horderly : Runs.Along (step true true) (Orderly true forked) {} replaced := by decide +kernel
  have hrun : (Runs.run (step true true) {} replaced).map
      (fun s => decide (s.manager.chain.tip = 3 ∧ s.manager.seen = 3 ∧ s.books.root.index = 1 ∧
        s.books.metadata.entries.map Prod.fst = [1, 2, 3])) = some true := by
    decide +kernel
  have ⟨s, hs, hfacts⟩ := Option.map_eq_some_iff.mp hrun
  have ⟨htip, hseen, hroot, hids⟩ := of_decide_eq_true hfacts
  refine ⟨s, hs, htip, (reopens_iff_complete horderly hs).mpr ⟨by rw [htip, hseen], 1, by omega, ?_⟩⟩
  rw [hids, hseen]
  rfl

end Sample

end Ledger

end Vprogs.Scheduler
