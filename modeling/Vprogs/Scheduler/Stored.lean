import Vprogs.Scheduler.Blocks
import Vprogs.Scheduler.StateEffects

/-!
What the state columns hold while batches come and go: the latest pointers name the
state after the last committed block, the versions behind them are there, and the
rollback pointers above the pruning cursor lead back from it. Each kind of write
keeps this.
-/
namespace Vprogs.Scheduler

open Abi

variable {B : Blocks} {s : StateStore} {tip last cursor target i : Nat} {id : ResourceId}

theorem StateVersion.pointer_eq (st : StateVersion) : st.pointer = st.norm.version := by
  unfold pointer norm
  split <;> rfl

/-- What the block wrote to the resource is stored, with the way back. -/
def Intact (B : Blocks) (s : StateStore) (b : Nat) (id : ResourceId) : Prop :=
  ∀ data, B.updateAt b id = some data →
    s.rollbackPtr b id = some (B.snapshot (B.parent b) id).version ∧
      (data ≠ [] → s.version b id = some data)

/-- The diffs of the resource in the blocks before `b` are stored. -/
def Behind (B : Blocks) (s : StateStore) (cursor b : Nat) (id : ResourceId) : Prop :=
  ∀ m, B.Anc m b → m < b → cursor < m → B.updateAt m id ≠ none → s.rollbackPtr m id ≠ none

/-- The columns, for a chain up to `tip` of which the blocks up to `last` have
committed and nothing above `cursor` has been pruned. A rollback to `target` walks the
pointers of blocks in flight, too: where a block it kept has its diff in the store, the
latest pointer may be ahead of the last commit. -/
structure Stored (B : Blocks) (s : StateStore) (tip last cursor target : Nat) : Prop where
  named : ∀ id, s.latestPtr id = StateStore.repointed (B.snapshot last id).version ∨
    ∃ j, B.Anc j tip ∧ last < j ∧ j ≤ target ∧ s.rollbackPtr j id ≠ none
  live : ∀ b id, B.Anc b last → cursor ≤ b ∨ b = last → (B.snapshot b id).data ≠ [] →
    s.version (B.snapshot b id).version id = some (B.snapshot b id).data
  pointer : ∀ b id old, s.rollbackPtr b id = some old →
    0 < b ∧ B.updateAt b id ≠ none ∧ old = (B.snapshot (B.parent b) id).version
  kept : ∀ b id, 0 < b → B.Anc b last → cursor < b → B.updateAt b id ≠ none →
    s.rollbackPtr b id ≠ none
  -- pointers of blocks that never committed come without gaps, too
  closed : ∀ n m id, s.rollbackPtr n id ≠ none → B.Anc m n → cursor < m → B.updateAt m id ≠ none →
    s.rollbackPtr m id ≠ none
  whole : ∀ b id, s.rollbackPtr b id ≠ none → cursor < b → Intact B s b id
  restorable : ∀ b, s.hasMetadata b = true → cursor < b ∨ ¬ B.Anc b tip → ∀ id, Intact B s b id
  version : ∀ v id data, s.version v id = some data →
    0 < v ∧ B.updateAt v id = some data ∧ data ≠ []

theorem stored_empty (B : Blocks) : Stored B {} 0 0 0 0 where
  named id := by
    rw [Blocks.snapshot_zero]
    exact .inl rfl
  live b id hb _ h := by
    have hzero : b = 0 := Nat.le_zero.mp hb.le
    rw [hzero, Blocks.snapshot_zero] at h
    exact absurd rfl h
  pointer _ _ _ h := by cases h
  kept b _ hpos hb _ _ := absurd hb.le (Nat.not_le_of_gt hpos)
  closed _ _ _ h := absurd rfl h
  whole _ _ h := absurd rfl h
  restorable _ h := by cases h
  version _ _ _ h := by cases h

namespace Stored

variable (h : Stored B s tip last cursor target)
include h

/-- Once the kept blocks have committed, the latest pointers name their state. -/
theorem latest (htarget : target ≤ last) (id : ResourceId) :
    s.latestPtr id = StateStore.repointed (B.snapshot last id).version := by
  refine (h.named id).resolve_right fun ⟨j, _, hlast, hj, _⟩ => ?_
  omega

theorem settled (htarget : target ≤ last) : Stored B s tip last cursor 0 :=
  { h with named := fun id => .inl (h.latest htarget id) }

theorem fromLatestData (hlatest : s.latestPtr id = StateStore.repointed (B.snapshot last id).version) :
    StateVersion.fromLatestData s id = B.snapshot last id := by
  unfold StateVersion.fromLatestData
  rw [hlatest, StateStore.repointed]
  by_cases hdata : (B.snapshot last id).data = []
  · rw [if_pos (Blocks.version_eq_zero_iff.mpr hdata)]
    exact (Blocks.snapshot_of_nil hdata).symm
  · rw [if_neg (mt Blocks.version_eq_zero_iff.mp hdata)]
    change StateVersion.mk _ ((s.version _ id).getD []) = _
    rw [h.live last id .refl (.inr rfl) hdata]
    rfl

/-- The pointer behind a latest pointer does not dangle. -/
theorem latest_live (htarget : target ≤ last) {v : Nat} (hv : s.latestPtr id = some v) :
    ∃ data, s.version v id = some data := by
  rw [h.latest htarget, StateStore.repointed] at hv
  split at hv
  · cases hv
  · next hne =>
    cases hv
    exact ⟨_, h.live last id .refl (.inr rfl) (mt Blocks.version_eq_zero_iff.mpr hne)⟩

/-- What is stored at a version of a block is its data. -/
theorem atVersion_of_intact (hintact : Intact B s i id) {data : Bytes}
    (hup : B.updateAt i id = some data) : StateVersion.atVersion s i id = ⟨i, data⟩ := by
  unfold StateVersion.atVersion
  cases hv : s.version i id with
  | some data' =>
    have ⟨_, hup', _⟩ := h.version i id data' hv
    rw [hup] at hup'
    cases hup'
    rfl
  | none =>
    have hnil : data = [] := by
      by_contra hne
      have hsome := (hintact data hup).2 hne
      rw [hv] at hsome
      cases hsome
    rw [hnil]
    rfl

/-- Where nothing has been pruned, the state before a stored diff is stored, too. -/
theorem atVersion_snapshot (hcursor : cursor = 0) (hptr : s.rollbackPtr i id ≠ none) (hpos : 0 < i) :
    (StateVersion.atVersion s (B.snapshot (B.parent i) id).version id).norm = B.snapshot (B.parent i) id := by
  by_cases hdata : (B.snapshot (B.parent i) id).data = []
  · have hnone : s.version (B.snapshot (B.parent i) id).version id = none := by
      rw [Blocks.version_eq_zero_iff.mpr hdata]
      by_contra hne
      have ⟨data, hsome⟩ := Option.ne_none_iff_exists'.mp hne
      exact Nat.lt_irrefl 0 (h.version 0 id data hsome).1
    rw [StateVersion.atVersion, hnone, Blocks.snapshot_of_nil hdata]
    rfl
  · have ⟨hanc, hvpos, hup⟩ := Blocks.written_by hdata
    have hne : B.updateAt (B.snapshot (B.parent i) id).version id ≠ none := by
      rw [hup]
      exact Option.some_ne_none _
    have hback := h.closed i _ id hptr (hanc.trans (.parent hpos)) (by omega) hne
    have hstored := (h.whole _ id hback (by omega) _ hup).2 hdata
    rw [StateVersion.atVersion, hstored]
    exact Blocks.norm_of_ne hdata

theorem weaken {tip' cursor' : Nat} (hcursor : cursor ≤ cursor')
    (htip : ∀ b, ¬ B.Anc b tip' → ¬ B.Anc b tip) : Stored B s tip' last cursor' target where
  named id := by
    refine (h.named id).imp_right fun ⟨j, hj, hrest⟩ => ⟨j, ?_, hrest⟩
    by_contra hnot
    exact htip j hnot hj
  live b id hb hle := h.live b id hb (hle.imp_left (Nat.le_trans hcursor))
  pointer := h.pointer
  kept b id hpos hb hlt := h.kept b id hpos hb (Nat.lt_of_le_of_lt hcursor hlt)
  closed n m id hn hm hlt := h.closed n m id hn hm (Nat.lt_of_le_of_lt hcursor hlt)
  whole b id hb hlt := h.whole b id hb (Nat.lt_of_le_of_lt hcursor hlt)
  restorable b hb hor := h.restorable b hb (hor.imp (Nat.lt_of_le_of_lt hcursor) (htip b))
  version := h.version

end Stored

/-! ### Diffs -/

/-- The diff says what the block does to the resource. -/
structure Diffed (B : Blocks) (i : Nat) (d : StateDiff) : Prop where
  read_lt : d.readState.version < i
  read : d.readState.norm = B.snapshot (B.parent i) d.resourceId
  updated : ∀ data, B.updateAt i d.resourceId = some data → d.writtenState = ⟨i, data⟩
  unchanged : B.updateAt i d.resourceId = none → d.writtenState = d.readState

theorem Diffed.dataUpdated_iff {d : StateDiff} (h : Diffed B i d) :
    d.dataUpdated = true ↔ B.updateAt i d.resourceId ≠ none := by
  unfold StateDiff.dataUpdated
  cases hup : B.updateAt i d.resourceId with
  | none => simp [h.unchanged hup]
  | some data => simp [h.updated data hup, h.read_lt]

namespace Diffed

variable {d : StateDiff} (hd : Diffed B i d)
include hd

theorem version_write (s : StateStore) (v : Nat) (id : ResourceId) :
    (s.commit (d.write i)).version v id = s.version v id ∨
      v = i ∧ id = d.resourceId ∧ ∃ data, B.updateAt i id = some data ∧ data ≠ [] ∧
        (s.commit (d.write i)).version v id = some data := by
  rw [StateStore.version_write]
  split
  · next hcond =>
    obtain ⟨hup, hne, hv, rfl⟩ := hcond
    have ⟨data, hdata⟩ := Option.ne_none_iff_exists'.mp (hd.dataUpdated_iff.mp hup)
    rw [hd.updated data hdata] at hv hne ⊢
    exact .inr ⟨hv, rfl, data, hdata, hne, rfl⟩
  · exact .inl rfl

theorem rollbackPtr_write (s : StateStore) (v : Nat) (id : ResourceId) :
    (s.commit (d.write i)).rollbackPtr v id = s.rollbackPtr v id ∨
      v = i ∧ id = d.resourceId ∧ B.updateAt i id ≠ none ∧
        (s.commit (d.write i)).rollbackPtr v id = some (B.snapshot (B.parent i) id).version := by
  rw [StateStore.rollbackPtr_write]
  split
  · next hcond =>
    obtain ⟨hup, rfl, rfl⟩ := hcond
    rw [StateVersion.pointer_eq, hd.read]
    exact .inr ⟨rfl, rfl, hd.dataUpdated_iff.mp hup, rfl⟩
  · exact .inl rfl

theorem rollbackPtr_write_ne {v : Nat} {id : ResourceId} (h : s.rollbackPtr v id ≠ none) :
    (s.commit (d.write i)).rollbackPtr v id ≠ none := by
  match hd.rollbackPtr_write s v id with
  | .inl heq => rwa [heq]
  | .inr ⟨_, _, _, heq⟩ => rw [heq]; exact Option.some_ne_none _

/-- Writing what a block writes keeps everything that is intact. -/
theorem intact {b : Nat} {id : ResourceId} (h : Intact B s b id) :
    Intact B (s.commit (d.write i)) b id := by
  intro data hup
  have ⟨hptr, hver⟩ := h data hup
  refine ⟨?_, fun hne => ?_⟩
  · match hd.rollbackPtr_write s b id with
    | .inl heq => rw [heq, hptr]
    | .inr ⟨hb, _, _, heq⟩ => rw [heq, hb]
  · match hd.version_write s b id with
    | .inl heq => rw [heq, hver hne]
    | .inr ⟨hb, _, data', hup', _, heq⟩ =>
      rw [← hb, hup] at hup'
      cases hup'
      exact heq

theorem intact_self : Intact B (s.commit (d.write i)) i d.resourceId := by
  intro data hup
  have hupdated := hd.dataUpdated_iff.mpr (by rw [hup]; exact Option.some_ne_none _)
  rw [StateStore.rollbackPtr_write, if_pos ⟨hupdated, rfl, rfl⟩, StateVersion.pointer_eq, hd.read]
  refine ⟨rfl, fun hne => ?_⟩
  rw [StateStore.version_write, hd.updated data hup, if_pos ⟨hupdated, hne, rfl, rfl⟩]

end Diffed

/-- A diff is written after those of the ancestors, so no pointer comes before its
predecessors. -/
theorem Stored.write {d : StateDiff} (h : Stored B s tip last cursor target) (hd : Diffed B i d)
    (hpos : 0 < i) (earlier : Behind B s cursor i d.resourceId) :
    Stored B (s.commit (d.write i)) tip last cursor target where
  named id := by
    unfold StateStore.latestPtr
    rw [StateStore.latest_write]
    exact (h.named id).imp_right fun ⟨j, hj, hlast, hle, hptr⟩ =>
      ⟨j, hj, hlast, hle, hd.rollbackPtr_write_ne hptr⟩
  live b id hb hor hne := by
    match hd.version_write s (B.snapshot b id).version id with
    | .inl heq => rw [heq, h.live b id hb hor hne]
    | .inr ⟨hv, _, data, hup, _, heq⟩ =>
      have hwrote := (Blocks.written_by hne).2.2
      rw [hv, hup] at hwrote
      rw [heq, hwrote]
  pointer b id old hptr := by
    match hd.rollbackPtr_write s b id with
    | .inl heq => exact h.pointer b id old (heq ▸ hptr)
    | .inr ⟨hb, _, hup, heq⟩ =>
      rw [heq] at hptr
      cases hptr
      exact ⟨hb ▸ hpos, hb ▸ hup, by rw [hb]⟩
  kept b id hb hanc hlt hup := hd.rollbackPtr_write_ne (h.kept b id hb hanc hlt hup)
  closed n m id hn hanc hlt hup := by
    match hd.rollbackPtr_write s n id with
    | .inl heq => exact hd.rollbackPtr_write_ne (h.closed n m id (heq ▸ hn) hanc hlt hup)
    | .inr ⟨hni, hid, _, _⟩ =>
      subst hni hid
      match Nat.lt_or_eq_of_le hanc.le with
      | .inl hmi => exact hd.rollbackPtr_write_ne (earlier m hanc hmi hlt hup)
      | .inr hmi => exact hmi ▸ hn
  whole b id hb hlt := by
    match hd.rollbackPtr_write s b id with
    | .inl heq => exact hd.intact (h.whole b id (heq ▸ hb) hlt)
    | .inr ⟨hbi, hid, _, _⟩ =>
      subst hbi hid
      exact hd.intact_self
  restorable b hb hor id := by
    unfold StateStore.hasMetadata at hb
    rw [StateStore.metadata_write] at hb
    exact hd.intact (h.restorable b hb hor id)
  version v id data hv := by
    match hd.version_write s v id with
    | .inl heq => exact h.version v id data (heq ▸ hv)
    | .inr ⟨hvi, _, data', hup, hne, heq⟩ =>
      rw [heq] at hv
      cases hv
      exact ⟨hvi ▸ hpos, hvi ▸ hup, hne⟩

/-! ### Commits -/

/-- The diffs of a restored batch name the same changes, but the state read before
may have been pruned. -/
structure Committable (B : Blocks) (i : Nat) (diffs : List StateDiff) : Prop where
  each : ∀ d ∈ diffs, (∀ data, B.updateAt i d.resourceId = some data →
      d.writtenState = ⟨i, data⟩ ∧ d.readState.version < i) ∧
    (B.updateAt i d.resourceId = none → d.writtenState = d.readState)
  complete : diffs.map (·.resourceId) = (B.body i).resources

namespace Committable

variable {diffs : List StateDiff} (hc : Committable B i diffs)
include hc

theorem dataUpdated_iff {d : StateDiff} (hd : d ∈ diffs) :
    d.dataUpdated = true ↔ B.updateAt i d.resourceId ≠ none := by
  have ⟨hsome, hnone⟩ := hc.each d hd
  unfold StateDiff.dataUpdated
  cases hup : B.updateAt i d.resourceId with
  | none => simp [hnone hup]
  | some data => simp [(hsome data hup).1, (hsome data hup).2]

theorem exists_diff (hid : id ∈ (B.body i).resources) : ∃ d ∈ diffs, d.resourceId = id := by
  rw [← hc.complete] at hid
  exact List.mem_map.mp hid

theorem unique {d d' : StateDiff} (hd : d ∈ diffs) (hd' : d' ∈ diffs)
    (heq : d'.resourceId = d.resourceId) : d' = d := by
  have hnodup : (diffs.map (·.resourceId)).Nodup := hc.complete ▸ (B.body i).distinct
  exact List.inj_on_of_nodup_map hnodup hd' hd heq

theorem latestPtr_commit (hpos : 0 < i) {restored : Bool}
    (h : B.updateAt i id = none →
      s.latestPtr id = StateStore.repointed (B.snapshot (B.parent i) id).version) :
    (s.commit (commitWrites diffs i restored)).latestPtr id =
      StateStore.repointed (B.snapshot i id).version := by
  cases hup : B.updateAt i id with
  | some data =>
    have hne : B.updateAt i id ≠ none := by rw [hup]; exact Option.some_ne_none _
    have ⟨d, hd, hid⟩ := hc.exists_diff (Blocks.resources_of_updateAt hne)
    subst hid
    rw [StateStore.latestPtr_commit_of_updated hd ((hc.dataUpdated_iff hd).mpr hne)
      fun d' hd' => hc.unique hd hd', ((hc.each d hd).1 data hup).1, Blocks.snapshot_of_some hpos hup,
      StateVersion.norm, StateStore.repointed]
    cases data with
    | nil => rfl
    | cons _ _ => exact (if_neg (Nat.ne_of_gt hpos)).symm
  | none =>
    rw [StateStore.latestPtr_commit_of_not_updated fun d hd hdup hid =>
      (hc.dataUpdated_iff hd).mp hdup (hid ▸ hup), h hup, Blocks.snapshot_of_none hpos hup]

end Committable

theorem Stored.commit {diffs : List StateDiff} {restored : Bool}
    (h : Stored B s tip (B.parent i) cursor target) (hpos : 0 < i) (hanc : B.Anc i tip)
    (hc : Committable B i diffs) (hintact : ∀ id, Intact B s i id) :
    Stored B (s.commit (commitWrites diffs i restored)) tip i cursor target := by
  have hsame : ∀ b id, Intact B s b id → Intact B (s.commit (commitWrites diffs i restored)) b id := by
    intro b id hb data hup
    rw [StateStore.rollbackPtr_commit, StateStore.version_commit]
    exact hb data hup
  constructor
  case named =>
    intro id
    by_cases hup : B.updateAt i id = none
    · refine (h.named id).imp (fun hlatest => hc.latestPtr_commit hpos fun _ => hlatest) ?_
      -- the block ahead is not this one, which does not write the resource
      intro ⟨j, hj, hlast, hle, hptr⟩
      have ⟨old, hold⟩ := Option.ne_none_iff_exists'.mp hptr
      refine ⟨j, hj, ?_, hle, by rwa [StateStore.rollbackPtr_commit]⟩
      by_contra hlt
      match Nat.lt_or_eq_of_le (Nat.not_lt.mp hlt) with
      | .inl hji => exact Nat.not_lt.mpr ((hj.of_le hanc (Nat.le_of_lt hji)).of_lt hji).le hlast
      | .inr heq => exact (h.pointer j id old hold).2.1 (heq ▸ hup)
    · exact .inl (hc.latestPtr_commit hpos fun hnone => absurd hnone hup)
  case live =>
    intro b id hb hor hne
    rw [StateStore.version_commit]
    match Nat.lt_or_eq_of_le hb.le with
    | .inl hlt => exact h.live b id (hb.of_lt hlt) (.inl (hor.resolve_right (Nat.ne_of_lt hlt))) hne
    | .inr heq =>
      subst heq
      cases hup : B.updateAt b id with
      | some data =>
        have hdata : data ≠ [] := by rwa [Blocks.snapshot_of_some hpos hup, Blocks.norm_data] at hne
        rw [Blocks.snapshot_of_some hpos hup, Blocks.norm_of_ne hdata]
        exact (hintact id data hup).2 hdata
      | none =>
        rw [Blocks.snapshot_of_none hpos hup] at hne ⊢
        exact h.live _ id .refl (.inr rfl) hne
  case pointer =>
    intro b id old
    rw [StateStore.rollbackPtr_commit]
    exact h.pointer b id old
  case kept =>
    intro b id hb hanc hlt hup
    rw [StateStore.rollbackPtr_commit]
    match Nat.lt_or_eq_of_le hanc.le with
    | .inl hbi => exact h.kept b id hb (hanc.of_lt hbi) hlt hup
    | .inr heq =>
      subst heq
      have ⟨data, hdata⟩ := Option.ne_none_iff_exists'.mp hup
      rw [(hintact id data hdata).1]
      exact Option.some_ne_none _
  case closed =>
    intro n m id
    rw [StateStore.rollbackPtr_commit, StateStore.rollbackPtr_commit]
    exact h.closed n m id
  case whole =>
    intro b id
    rw [StateStore.rollbackPtr_commit]
    exact fun hb hlt => hsame b id (h.whole b id hb hlt)
  case restorable =>
    intro b hb hor id
    rw [StateStore.hasMetadata_commit, Bool.or_eq_true] at hb
    match hb with
    | .inl hb => exact hsame b id (h.restorable b hb hor id)
    | .inr hb =>
      have hbi : b = i := by simpa using (Bool.and_eq_true_iff.mp hb).2
      exact hsame b id (hbi ▸ hintact id)
  case version =>
    intro v id data
    rw [StateStore.version_commit]
    exact h.version v id data

end Vprogs.Scheduler
