import Vprogs.Scheduler.System
import Vprogs.Scheduler.Unwound

/-!
What holds between the steps of a run: the chain follows the block tree, the store
is `Stored` for it, and each batch in flight has read, computed and persisted what
executing the blocks in order gives.
-/
namespace Vprogs.Scheduler

open Abi

variable {B : Blocks}

/-- No block on the way from `lo` to `i` accesses the resource. -/
def Untouched (B : Blocks) (lo i : Nat) (r : ResourceId) : Prop :=
  ∀ c, B.Anc c i → lo < c → c < i → r ∉ (B.body c).resources

theorem Untouched.snapshot_eq {lo i : Nat} {r : ResourceId} (h : Untouched B lo i r) (hpos : 0 < i)
    (hlo : B.Anc lo i) (hlt : lo < i) : B.snapshot (B.parent i) r = B.snapshot lo r := by
  refine Blocks.snapshot_eq_of_unwritten (hlo.of_lt hlt) fun c hc hlo' => ?_
  by_contra hup
  have hci : c < i := Nat.lt_of_le_of_lt hc.le (B.parent_lt hpos)
  exact h c (hc.trans (.parent hpos)) hlo' hci (Blocks.resources_of_updateAt hup)

/-- The state of the resource came from disk, or its diff has gone there. -/
def Batch.Backed (x : Batch) (r : ResourceId) : Prop :=
  x.restored = true ∧ x.written r ≠ none ∨
    x.restored = false ∧ x.source r = none ∧ x.read r ≠ none ∨ r ∈ x.persisted

/-- A batch of the chain up to `tip` while the blocks up to `last` have committed. -/
structure Batch.Ok (B : Blocks) (store : StateStore) (tip last cursor : Nat) (i : Nat) (x : Batch) :
    Prop where
  pos : 0 < i
  canonical : B.Anc i tip
  committed : x.committed = true ↔ i ≤ last
  declared : ∀ r st, x.read r = some st → r ∈ (B.body i).resources ∧ st.version < i
  read : x.restored = false → ∀ r st, x.read r = some st → st.norm = B.snapshot (B.parent i) r
  written : ∀ r st, x.written r = some st → ∃ readState, x.read r = some readState ∧
    (∀ data, B.updateAt i r = some data → st = ⟨i, data⟩) ∧
    (B.updateAt i r = none → st = readState ∧ readState.norm = B.snapshot (B.parent i) r)
  done : x.committed = true → ∀ r ∈ (B.body i).resources, x.written r ≠ none
  intact : x.committed = false → ∀ r, x.restored = true ∨ r ∈ x.persisted → Intact B store i r
  behind : x.committed = false → ∀ r, x.Backed r → Behind B store cursor i r
  chained : ∀ r p, x.source r = some p → 0 < p ∧ B.Anc p i ∧ p < i ∧ r ∈ (B.body p).resources ∧
    Untouched B p i r

namespace Batch.Ok

variable {store : StateStore} {tip last cursor i : Nat} {x : Batch}
variable (h : x.Ok B store tip last cursor i)
include h

/-- The data handed on is what the block leaves. -/
theorem written_norm {r : ResourceId} {st : StateVersion} (hst : x.written r = some st) :
    st.norm = B.snapshot i r ∧ st.version ≤ i := by
  have ⟨readState, hread, hsome, hnone⟩ := h.written r st hst
  cases hup : B.updateAt i r with
  | some data =>
    rw [hsome data hup, Blocks.snapshot_of_some h.pos hup]
    exact ⟨rfl, Nat.le_refl i⟩
  | none =>
    have ⟨heq, hnorm⟩ := hnone hup
    rw [heq, Blocks.snapshot_of_none h.pos hup]
    exact ⟨hnorm, Nat.le_of_lt (h.declared r readState hread).2⟩

theorem diffed (hx : x.restored = false) {r : ResourceId} {readState writtenState : StateVersion}
    (hread : x.read r = some readState) (hwritten : x.written r = some writtenState) :
    Diffed B i ⟨r, readState, writtenState⟩ := by
  have ⟨readState', hread', hsome, hnone⟩ := h.written r writtenState hwritten
  rw [hread] at hread'
  cases hread'
  exact ⟨(h.declared r _ hread).2, h.read hx r _ hread, hsome, fun hup => (hnone hup).1⟩

/-- A batch is not affected by what the others do. -/
theorem mono {store' : StateStore} {tip' last' cursor' : Nat} (htip : B.Anc i tip → B.Anc i tip')
    (hlast : i ≤ last ↔ i ≤ last') (hintact : last < i → ∀ r, Intact B store i r → Intact B store' i r)
    (hbehind : ∀ r, Behind B store cursor i r → Behind B store' cursor' i r) :
    x.Ok B store' tip' last' cursor' i where
  pos := h.pos
  canonical := htip h.canonical
  committed := h.committed.trans hlast
  declared := h.declared
  read := h.read
  written := h.written
  done := h.done
  intact hx r hr := by
    refine hintact (Nat.lt_of_not_le fun hle => ?_) r (h.intact hx r hr)
    rw [h.committed.mpr hle] at hx
    cases hx
  behind hx r hr := hbehind r (h.behind hx r hr)
  chained := h.chained

theorem setRead {r : ResourceId} {st : StateVersion} (hunwritten : x.written r = none)
    (hmem : r ∈ (B.body i).resources) (hversion : st.version < i)
    (hnorm : x.restored = false → st.norm = B.snapshot (B.parent i) r)
    (hbehind : x.restored = false → x.source r = none → Behind B store cursor i r) :
    (x.setRead r st).Ok B store tip last cursor i := by
  refine { h with
    declared := fun r' st' hr' => ?_
    read := fun hres r' st' hr' => ?_
    written := fun r' st' hr' => ?_
    behind := fun hx r' hr' => ?_ }
  · rw [read_setRead] at hr'
    split at hr'
    · next heq =>
      cases hr'
      exact ⟨heq ▸ hmem, hversion⟩
    · exact h.declared r' st' hr'
  · rw [read_setRead] at hr'
    split at hr'
    · next heq =>
      cases hr'
      rw [heq, hnorm hres]
    · exact h.read hres r' st' hr'
  · have ⟨readState, hread, hrest⟩ := h.written r' st' hr'
    have hne : r' ≠ r := fun heq => by
      subst heq
      cases hunwritten.symm.trans hr'
    exact ⟨readState, by rw [read_setRead, if_neg hne, hread], hrest⟩
  · match hr' with
    | .inl hr' => exact h.behind hx r' (.inl hr')
    | .inr (.inl ⟨hres, hsource, hread⟩) =>
      by_cases heq : r' = r
      · subst heq
        exact hbehind hres hsource
      · rw [read_setRead, if_neg heq] at hread
        exact h.behind hx r' (.inr (.inl ⟨hres, hsource, hread⟩))
    | .inr (.inr hr') => exact h.behind hx r' (.inr (.inr hr'))

theorem setWritten {r : ResourceId} {readState st : StateVersion} (hread : x.read r = some readState)
    (hsome : ∀ data, B.updateAt i r = some data → st = ⟨i, data⟩)
    (hnone : B.updateAt i r = none → st = readState ∧ readState.norm = B.snapshot (B.parent i) r)
    (hbehind : x.restored = true → Behind B store cursor i r) :
    (x.setWritten r st).Ok B store tip last cursor i := by
  refine { h with
    written := fun r' st' hr' => ?_
    done := fun hx r' hr' => ?_
    behind := fun hx r' hr' => ?_ }
  · rw [written_setWritten] at hr'
    split at hr'
    · next heq =>
      cases hr'
      subst heq
      exact ⟨readState, hread, hsome, hnone⟩
    · exact h.written r' st' hr'
  · rw [written_setWritten]
    split
    · exact Option.some_ne_none _
    · exact h.done hx r' hr'
  · match hr' with
    | .inl ⟨hres, hwritten⟩ =>
      by_cases heq : r' = r
      · subst heq
        exact hbehind hres
      · rw [written_setWritten, if_neg heq] at hwritten
        exact h.behind hx r' (.inl ⟨hres, hwritten⟩)
    | .inr hr' => exact h.behind hx r' (.inr hr')

/-- Once what the resource needs is read, the transactions compute what the block
writes. -/
theorem run_eq (hres : x.restored = false) {r : ResourceId} {readState : StateVersion}
    (hread : x.read r = some readState) (hneeds : ∀ y ∈ (B.body i).needs r, (x.read y).isSome = true) :
    (B.body i).run x.data r = B.updateAt i r := by
  rw [Blocks.updateAt, Body.update, if_pos (h.declared r _ hread).1]
  refine (B.body i).run_congr fun y hy => ?_
  obtain ⟨st, hst⟩ := Option.isSome_iff_exists.mp (hneeds y hy)
  have hdata : st.data = (B.snapshot (B.parent i) y).data := by
    rw [← h.read hres y st hst, Blocks.norm_data]
  rw [Batch.data, hst, Body.reads, if_pos (h.declared y st hst).1, ← hdata]
  rfl

end Batch.Ok

/-- How far finalization and pruning have come. Ids of dropped buckets are pruned,
or below every canonical one. -/
structure Bounded (chain : Chain) (root cursor : Nat) (pass : Option Pass) : Prop where
  tip_le : chain.tip ≤ chain.seen
  base_le : chain.base ≤ chain.seen + 1
  dropped_base : chain.dropped * Bucket.CAPACITY < chain.base
  dropped : chain.dropped * Bucket.CAPACITY ≤ cursor ∨
    ∀ c ∈ chain.ids, chain.dropped * Bucket.CAPACITY < c
  unrooted : root = 0 → cursor = 0 ∧ chain.tip = 0
  rooted : root ≠ 0 → cursor < root ∧ chain.tip ≠ 0 ∧
    (root = cursor + 1 ∨ ∀ c ∈ chain.ids, root ≤ c)
  pass : ∀ p, pass = some p → p.upper ≤ cursor

namespace System

variable {D : Type} (B : Blocks) (s : System D)

/-- The blocks of the chain that have not committed. -/
def inFlight (s : System D) : List Nat := s.chain.ids.filter fun j => !s.isCommitted j

/-- The disk can be read for block `k`: no block in flight before it writes the resource,
and none that the last rollback kept has a diff of it there. -/
def Clear (target k : Nat) (r : ResourceId) : Prop :=
  ∀ j ∈ s.inFlight, (j < k → B.updateAt j r = none) ∧ (j ≤ target → s.store.rollbackPtr j r = none)

/-- What holds after a rollback to `target`, whatever was in flight. -/
structure Consistent (target : Nat) : Prop where
  stands : Canonical.Stands s.oracle s.chain
  bounded : Bounded s.chain s.root s.cursor s.pass
  ids : ∀ c, c ∈ s.chain.ids ↔ 0 < c ∧ B.Anc c s.chain.tip
  last : B.Anc s.lastCommitted s.chain.tip
  stored : Stored B s.store s.chain.tip s.lastCommitted s.cursor target
  batch : ∀ i x, s.batches i = some x → x.Ok B s.store s.chain.tip s.lastCommitted s.cursor i
  held : ∀ c, 0 < c → B.Anc c s.chain.tip → ∃ x, s.batches c = some x
  handed : ∀ i x r p y, s.batches i = some x → x.restored = false → x.source r = some p →
    x.read r ≠ none → s.batches p = some y → y.written r ≠ none
  inMemory : ∀ r p, s.resources r = some p → 0 < p ∧ B.Anc p s.chain.tip ∧
    r ∈ (B.body p).resources ∧ ∀ c, B.Anc c s.chain.tip → p < c → r ∉ (B.body c).resources

/-- What else holds while rollbacks keep nothing in flight and nothing is in flight when
a batch is restored. -/
structure Invariant : Prop extends Consistent B s 0 where
  unchained : ∀ i x, s.batches i = some x → ∀ r, x.source r = none → Untouched B s.lastCommitted i r
  alone : ∀ i x, s.batches i = some x → x.restored = true → x.committed = false →
    s.lastCommitted = B.parent i
  evicted : ∀ r, s.resources r = none → ∀ c, B.Anc c s.chain.tip → s.lastCommitted < c →
    r ∉ (B.body c).resources

theorem consistent_init : Consistent B ({} : System D) 0 where
  stands := Canonical.stands_empty
  bounded := ⟨Nat.le_refl 0, Nat.le_refl 1, Nat.one_pos, .inl (Nat.le_refl 0), fun _ => ⟨rfl, rfl⟩,
    fun h => absurd rfl h, fun _ h => by cases h⟩
  ids c := by
    refine ⟨fun h => (by cases h), fun ⟨hpos, hc⟩ => ?_⟩
    exact absurd hc.le (Nat.not_le_of_gt hpos)
  last := .refl
  stored := stored_empty B
  batch _ _ h := by cases h
  held c hpos hc := absurd hc.le (Nat.not_le_of_gt hpos)
  handed _ _ _ _ _ h := by cases h
  inMemory _ _ h := by cases h

theorem invariant_init : Invariant B ({} : System D) where
  toConsistent := consistent_init B
  unchained _ _ h := by cases h
  alone _ _ h := by cases h
  evicted _ _ c hc hlt := absurd hc.le (Nat.not_le_of_gt hlt)

namespace Consistent

variable {B s} {target : Nat} (h : s.Consistent B target)
include h

theorem committed_iff {i : Nat} {x : Batch} (hx : s.batches i = some x) :
    x.committed = true ↔ i ≤ s.lastCommitted := (h.batch i x hx).committed

theorem last_of_le {c : Nat} (hc : B.Anc c s.chain.tip) (hle : c ≤ s.lastCommitted) :
    B.Anc c s.lastCommitted := hc.of_le h.last hle

theorem mem_inFlight_iff {j : Nat} : j ∈ s.inFlight ↔ B.Anc j s.chain.tip ∧ s.lastCommitted < j := by
  rw [inFlight, List.mem_filter, h.ids, Bool.not_eq_true']
  constructor
  · intro ⟨⟨hpos, hj⟩, hopen⟩
    have ⟨y, hy⟩ := h.held j hpos hj
    refine ⟨hj, Nat.lt_of_not_le fun hle => ?_⟩
    rw [isCommitted, hy, Option.any_some, (h.committed_iff hy).mpr hle] at hopen
    cases hopen
  · intro ⟨hj, hlt⟩
    have hpos : 0 < j := Nat.lt_of_le_of_lt (Nat.zero_le _) hlt
    have ⟨y, hy⟩ := h.held j hpos hj
    refine ⟨⟨hpos, hj⟩, ?_⟩
    rw [isCommitted, hy, Option.any_some]
    by_contra hne
    exact Nat.not_le.mpr hlt ((h.committed_iff hy).mp (by simpa using hne))

theorem mem_inFlight {j : Nat} {y : Batch} (hy : s.batches j = some y) (hopen : y.committed = false) :
    j ∈ s.inFlight := by
  refine h.mem_inFlight_iff.mpr ⟨(h.batch j y hy).canonical, Nat.lt_of_not_le fun hle => ?_⟩
  rw [(h.committed_iff hy).mpr hle] at hopen
  cases hopen

/-- Nothing that the latest pointers name is ahead of the blocks before `k`. -/
theorem clear_latest {k : Nat} {r : ResourceId} (hclear : s.Clear B target k r) :
    s.store.latestPtr r = StateStore.repointed (B.snapshot s.lastCommitted r).version := by
  refine (h.stored.named r).resolve_right fun ⟨j, hj, hlt, hle, hptr⟩ => hptr ?_
  exact (hclear j (h.mem_inFlight_iff.mpr ⟨hj, hlt⟩)).2 hle

theorem clear_unwritten {k : Nat} {r : ResourceId} (hclear : s.Clear B target k r)
    (hk : B.Anc k s.chain.tip) {m : Nat} (hm : B.Anc m k) (hmk : m < k) (hlt : s.lastCommitted < m) :
    B.updateAt m r = none :=
  (hclear m (h.mem_inFlight_iff.mpr ⟨hm.trans hk, hlt⟩)).1 hmk

/-- What the disk has for block `k` is what the blocks before it left. -/
theorem clear_reads {k : Nat} {r : ResourceId} (hclear : s.Clear B target k r) (hpos : 0 < k)
    (hk : B.Anc k s.chain.tip) (hlt : s.lastCommitted < k) :
    StateVersion.fromLatestData s.store r = B.snapshot (B.parent k) r ∧
      Behind B s.store s.cursor k r := by
  have hlast : B.Anc s.lastCommitted k := h.last.of_le hk (Nat.le_of_lt hlt)
  constructor
  · rw [h.stored.fromLatestData (h.clear_latest hclear)]
    refine (Blocks.snapshot_eq_of_unwritten (hlast.of_lt hlt) fun c hc hlt' => ?_).symm
    exact h.clear_unwritten hclear hk (hc.trans (.parent hpos))
      (Nat.lt_of_le_of_lt hc.le (B.parent_lt hpos)) hlt'
  · intro m hm hmk hcursor hup
    have hle : m ≤ s.lastCommitted := Nat.le_of_not_lt fun hlt' =>
      hup (h.clear_unwritten hclear hk hm hmk hlt')
    exact h.stored.kept m r (by omega) (h.last_of_le (hm.trans hk) hle) hcursor hup

end Consistent

end System

end Vprogs.Scheduler
