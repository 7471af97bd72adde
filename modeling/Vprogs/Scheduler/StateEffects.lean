import Vprogs.Scheduler.StateStore

/-!
What each kind of write does to the state columns, read at one resource: a diff, a
commit, a rollback and a pruning pass.
-/
namespace Vprogs.Scheduler

open Abi

namespace StateStore

variable {s : StateStore} {b v : Nat} {id : ResourceId}

/-! A diff touches its own data and rollback pointer. -/

theorem version_write (d : StateDiff) :
    (s.commit (d.write b)).version v id =
      if d.dataUpdated = true ∧ d.writtenState.data ≠ [] ∧ v = d.writtenState.version ∧
        id = d.resourceId then some d.writtenState.data else s.version v id := by
  unfold StateDiff.write StateVersion.writeData
  split
  · split
    · next hempty =>
      rw [if_neg (by simp_all)]
      rfl
    · next hdata =>
      change (s.versions.put (toLex (d.writtenState.version, d.resourceId))
        d.writtenState.data).get (toLex (v, id)) = _
      rw [Column.get_put]
      simp_all [version]
  · next hup =>
    rw [if_neg (by simp_all)]
    rfl

theorem rollbackPtr_write (d : StateDiff) :
    (s.commit (d.write b)).rollbackPtr v id =
      if d.dataUpdated = true ∧ v = b ∧ id = d.resourceId then some d.readState.pointer
      else s.rollbackPtr v id := by
  unfold StateDiff.write
  split
  · next hup =>
    have hwrite : (s.commit (d.writtenState.writeData d.resourceId ++
        d.readState.writeRollbackPtr d.resourceId b)).rollback =
        s.rollback.put (toLex (b, d.resourceId)) d.readState.pointer := by
      unfold StateVersion.writeData
      split <;> rfl
    rw [rollbackPtr, hwrite, Column.get_put]
    simp [hup, rollbackPtr]
  · next hup =>
    rw [if_neg (by simp_all)]
    rfl

theorem latest_write (d : StateDiff) : (s.commit (d.write b)).latest = s.latest := by
  unfold StateDiff.write StateVersion.writeData
  split
  · split <;> rfl
  · rfl

theorem metadata_write (d : StateDiff) : (s.commit (d.write b)).metadata = s.metadata := by
  unfold StateDiff.write StateVersion.writeData
  split
  · split <;> rfl
  · rfl

/-! A commit touches the latest pointers of the updated resources. -/

theorem writeLatestPtr_latest (st : StateVersion) (id : ResourceId) :
    ∃ w : Column.Write ResourceId Nat, (st.writeLatestPtr id).latest = [w] ∧ w.key = id ∧
      w.value = if st.data = [] then none else some st.version := by
  unfold StateVersion.writeLatestPtr
  by_cases h : st.data = []
  · exact ⟨.delete id, by simp [h], rfl, by simp [h, Column.Write.value]⟩
  · exact ⟨.put id st.version, by simp [h], rfl, by simp [h, Column.Write.value]⟩

theorem commitWrites_latest {diffs : List StateDiff} {restored : Bool} :
    (commitWrites diffs b restored).latest =
      (diffs.filter StateDiff.dataUpdated).flatMap
        fun d => (d.writtenState.writeLatestPtr d.resourceId).latest := by
  unfold commitWrites
  split
  · exact List.append_nil _
  · exact List.append_nil _

theorem latestPtr_commit_of_updated {diffs : List StateDiff} {restored : Bool} {d : StateDiff}
    (hd : d ∈ diffs) (hup : d.dataUpdated = true)
    (hsame : ∀ d' ∈ diffs, d'.resourceId = d.resourceId → d' = d) :
    (s.commit (commitWrites diffs b restored)).latestPtr d.resourceId =
      if d.writtenState.data = [] then none else some d.writtenState.version := by
  change (s.latest.writeAll (commitWrites diffs b restored).latest).get d.resourceId = _
  rw [commitWrites_latest]
  have ⟨w, hw, hkey, hvalue⟩ := writeLatestPtr_latest d.writtenState d.resourceId
  refine Column.get_writeAll_of_same (fun w' hw' hkey' => ?_) ?_ _
  · have ⟨d', hd', hmem⟩ := List.mem_flatMap.mp hw'
    have ⟨w'', hw'', hkey'', hvalue''⟩ := writeLatestPtr_latest d'.writtenState d'.resourceId
    rw [hw'', List.mem_singleton] at hmem
    have heq := hsame d' (List.mem_filter.mp hd').1 (by rw [← hkey'', ← hmem, hkey'])
    rw [hmem, hvalue'', heq]
  · exact ⟨w, List.mem_flatMap.mpr ⟨d, List.mem_filter.mpr ⟨hd, hup⟩, by rw [hw]; simp⟩, hkey⟩

theorem latestPtr_commit_of_not_updated {diffs : List StateDiff} {restored : Bool}
    (h : ∀ d ∈ diffs, d.dataUpdated = true → d.resourceId ≠ id) :
    (s.commit (commitWrites diffs b restored)).latestPtr id = s.latestPtr id := by
  change (s.latest.writeAll (commitWrites diffs b restored).latest).get id = _
  rw [commitWrites_latest]
  refine Column.get_writeAll_of_ne (fun w hw => ?_) _
  have ⟨d, hd, hmem⟩ := List.mem_flatMap.mp hw
  have ⟨w', hw', hkey, _⟩ := writeLatestPtr_latest d.writtenState d.resourceId
  rw [hw', List.mem_singleton] at hmem
  rw [hmem, hkey]
  exact h d (List.mem_filter.mp hd).1 (List.mem_filter.mp hd).2

theorem forEach_writeLatestPtr (diffs : List StateDiff) :
    (WriteBatch.forEach diffs fun d => d.writtenState.writeLatestPtr d.resourceId).versions = [] ∧
      (WriteBatch.forEach diffs fun d => d.writtenState.writeLatestPtr d.resourceId).rollback = [] ∧
      (WriteBatch.forEach diffs fun d => d.writtenState.writeLatestPtr d.resourceId).metadata = [] := by
  simp only [WriteBatch.forEach, List.flatMap_eq_nil_iff, StateVersion.writeLatestPtr]
  refine ⟨fun d _ => ?_, fun d _ => ?_, fun d _ => ?_⟩ <;> split <;> rfl

theorem commit_versions {diffs : List StateDiff} {restored : Bool} :
    (s.commit (commitWrites diffs b restored)).versions = s.versions ∧
      (s.commit (commitWrites diffs b restored)).rollback = s.rollback := by
  have ⟨hversions, hrollback, _⟩ := forEach_writeLatestPtr (diffs.filter StateDiff.dataUpdated)
  unfold commitWrites
  split
  · exact ⟨congrArg (fun ws => s.versions.writeAll (ws ++ [])) hversions,
      congrArg (fun ws => s.rollback.writeAll (ws ++ [])) hrollback⟩
  · exact ⟨congrArg (fun ws => s.versions.writeAll (ws ++ [])) hversions,
      congrArg (fun ws => s.rollback.writeAll (ws ++ [])) hrollback⟩

theorem version_commit (diffs : List StateDiff) (restored : Bool) (v : Nat) (id : ResourceId) :
    (s.commit (commitWrites diffs b restored)).version v id = s.version v id := by
  rw [version, commit_versions.1, version]

theorem rollbackPtr_commit (diffs : List StateDiff) (restored : Bool) (v : Nat) (id : ResourceId) :
    (s.commit (commitWrites diffs b restored)).rollbackPtr v id = s.rollbackPtr v id := by
  rw [rollbackPtr, commit_versions.2, rollbackPtr]

theorem hasMetadata_commit {diffs : List StateDiff} {restored : Bool} :
    (s.commit (commitWrites diffs b restored)).hasMetadata v =
      (s.hasMetadata v || (!restored && decide (v = b))) := by
  have ⟨_, _, hmetadata⟩ := forEach_writeLatestPtr (diffs.filter StateDiff.dataUpdated)
  unfold commitWrites
  cases restored with
  | true =>
    change ((s.metadata.writeAll (_ ++ [])).get v).isSome = _
    rw [hmetadata]
    simp [hasMetadata]
  | false =>
    change ((s.metadata.writeAll (_ ++ [Column.Write.put b ()])).get v).isSome = _
    rw [hmetadata]
    change ((s.metadata.put b ()).get v).isSome = _
    rw [Column.get_put]
    by_cases h : v = b <;> simp [h, hasMetadata]

/-! A rollback leaves the pointer of the last batch on its way that has one. -/

/-- What a rollback pointer repoints to. -/
def repointed (old : Nat) : Option Nat := if old = 0 then none else some old

theorem restoreLatestPtr_latest (ptr : ResourceId × Nat) :
    ∃ w : Column.Write ResourceId Nat, (restoreLatestPtr ptr).latest = [w] ∧ w.key = ptr.1 ∧
      w.value = repointed ptr.2 := by
  unfold restoreLatestPtr repointed
  by_cases h : ptr.2 = 0
  · exact ⟨.delete ptr.1, by simp [h], rfl, by simp [h, Column.Write.value]⟩
  · exact ⟨.put ptr.1 ptr.2, by simp [h], rfl, by simp [h, Column.Write.value]⟩

theorem mem_restored {w : Column.Write ResourceId Nat} :
    w ∈ (WriteBatch.forEach (s.iterBatch b) restoreLatestPtr).latest →
      ∃ old, s.rollbackPtr b w.key = some old ∧ w.value = repointed old := by
  intro hw
  have ⟨ptr, hptr, hmem⟩ := List.mem_flatMap.mp hw
  have ⟨w', hw', hkey, hvalue⟩ := restoreLatestPtr_latest ptr
  rw [hw', List.mem_singleton] at hmem
  subst hmem
  exact ⟨ptr.2, by rw [hkey]; exact s.mem_iterBatch.mp hptr, hvalue⟩

theorem latestPtr_walked_none {indices : List Nat} (h : ∀ i ∈ indices, s.rollbackPtr i id = none) :
    (s.commit (s.walked indices)).latestPtr id = s.latestPtr id := by
  refine Column.get_writeAll_of_ne (fun w hw hkey => ?_) _
  have ⟨i, hi, hmem⟩ := List.mem_flatMap.mp hw
  have ⟨old, hptr, _⟩ := mem_restored hmem
  rw [hkey, h i hi] at hptr
  cases hptr

theorem latestPtr_walked {before after : List Nat} {old : Nat}
    (hptr : s.rollbackPtr b id = some old) (h : ∀ i ∈ after, s.rollbackPtr i id = none) :
    (s.commit (s.walked (before ++ b :: after))).latestPtr id = repointed old := by
  have hsplit : (s.walked (before ++ b :: after)).latest = (s.walked before).latest ++
      ((WriteBatch.forEach (s.iterBatch b) restoreLatestPtr).latest ++ (s.walked after).latest) := by
    simp [walked, WriteBatch.forEach]
  change (s.latest.writeAll (s.walked (before ++ b :: after)).latest).get id = _
  rw [hsplit, Column.writeAll_append, Column.writeAll_append]
  have huntouched : ∀ w ∈ (s.walked after).latest, w.key ≠ id := by
    intro w hw hkey
    have ⟨i, hi, hmem⟩ := List.mem_flatMap.mp hw
    have ⟨_, hptr', _⟩ := mem_restored hmem
    rw [hkey, h i hi] at hptr'
    cases hptr'
  rw [Column.get_writeAll_of_ne huntouched]
  refine Column.get_writeAll_of_same (fun w hw hkey => ?_) ?_ _
  · have ⟨old', hptr', hvalue⟩ := mem_restored hw
    rw [hkey, hptr] at hptr'
    cases hptr'
    exact hvalue
  · have ⟨w, hw, hkey, _⟩ := restoreLatestPtr_latest (id, old)
    exact ⟨w, List.mem_flatMap.mpr ⟨(id, old), s.mem_iterBatch.mpr hptr, by rw [hw]; simp⟩, hkey⟩

theorem walked_others (indices : List Nat) :
    (s.commit (s.walked indices)).versions = s.versions ∧
      (s.commit (s.walked indices)).rollback = s.rollback ∧
      (s.commit (s.walked indices)).metadata = s.metadata := by
  have hnil : (s.walked indices).versions = [] ∧ (s.walked indices).rollback = [] ∧
      (s.walked indices).metadata = [] := by
    simp only [walked, WriteBatch.forEach, List.flatMap_eq_nil_iff, restoreLatestPtr]
    refine ⟨fun i _ ptr _ => ?_, fun i _ ptr _ => ?_, fun i _ ptr _ => ?_⟩ <;> split <;> rfl
  have ⟨hversions, hrollback, hmetadata⟩ := hnil
  exact ⟨congrArg s.versions.writeAll hversions, congrArg s.rollback.writeAll hrollback,
    congrArg s.metadata.writeAll hmetadata⟩

/-! Pruning deletes what the pointers of its range name. -/

section Prune

variable {isCanonical : Nat → Bool} {lo hi : Nat}

theorem mem_pruneRange {index : Nat} : index ∈ List.range' lo (hi + 1 - lo) ↔ lo ≤ index ∧ index ≤ hi := by
  rw [List.mem_range'_1]
  omega

/-- The version a rollback pointer lets pruning delete. -/
def Reclaims (s : StateStore) (isCanonical : Nat → Bool) (index v : Nat) (id : ResourceId) : Prop :=
  ∃ old, s.rollbackPtr index id = some old ∧
    (isCanonical index = false ∧ v = index ∨ isCanonical index = true ∧ v = old ∧ old ≠ 0)

theorem mem_prunePtr_versions {index : Nat} {canonical : Bool} {ptr : ResourceId × Nat}
    {w : Column.Write VersionKey Bytes} (h : w ∈ (prunePtr canonical index ptr).versions) :
    ∃ v, w = .delete (toLex (v, ptr.1)) ∧
      (canonical = false ∧ v = index ∨ canonical = true ∧ v = ptr.2 ∧ ptr.2 ≠ 0) := by
  unfold prunePtr at h
  cases canonical with
  | false => exact ⟨index, by simpa using List.mem_append.mp h, .inl ⟨rfl, rfl⟩⟩
  | true =>
    by_cases hzero : ptr.2 = 0
    · rw [if_neg (by simp), if_neg (by simpa using hzero)] at h
      cases h
    · rw [if_neg (by simp), if_pos hzero] at h
      exact ⟨ptr.2, by simpa using List.mem_append.mp h, .inr ⟨rfl, rfl, hzero⟩⟩

theorem version_prune :
    (s.commit (pruneWrites s isCanonical lo hi)).version v id = s.version v id ∨
      (s.commit (pruneWrites s isCanonical lo hi)).version v id = none ∧
        ∃ index, lo ≤ index ∧ index ≤ hi ∧ s.Reclaims isCanonical index v id := by
  by_cases h : ∃ w ∈ (pruneWrites s isCanonical lo hi).versions, w.key = toLex (v, id)
  · have hdeletes : ∀ w ∈ (pruneWrites s isCanonical lo hi).versions,
        ∃ index, lo ≤ index ∧ index ≤ hi ∧ ∃ ptr ∈ s.iterBatch index,
          w ∈ (prunePtr (isCanonical index) index ptr).versions := by
      intro w hw
      have ⟨index, hindex, hw⟩ := List.mem_flatMap.mp hw
      have hw : w ∈ (WriteBatch.forEach (s.iterBatch index)
          (prunePtr (isCanonical index) index)).versions := by simpa using List.mem_append.mp hw
      have ⟨ptr, hptr, hw⟩ := List.mem_flatMap.mp hw
      exact ⟨index, (mem_pruneRange.mp hindex).1, (mem_pruneRange.mp hindex).2, ptr, hptr, hw⟩
    refine .inr ⟨Column.get_writeAll_of_same (fun w hw _ => ?_) h _, ?_⟩
    · have ⟨_, _, _, _, _, hw⟩ := hdeletes w hw
      have ⟨_, heq, _⟩ := mem_prunePtr_versions hw
      rw [heq]
      rfl
    · have ⟨w, hw, hkey⟩ := h
      have ⟨index, hlo, hhi, ptr, hptr, hw⟩ := hdeletes w hw
      have ⟨u, heq, hcase⟩ := mem_prunePtr_versions hw
      rw [heq] at hkey
      have hpair : (u, ptr.1) = (v, id) := hkey
      cases hpair
      exact ⟨index, hlo, hhi, ptr.2, s.mem_iterBatch.mp hptr, hcase⟩
  · refine .inl (Column.get_writeAll_of_ne (fun w hw hkey => h ⟨w, hw, hkey⟩) _)

theorem version_prune_of_kept (h : ∀ index, lo ≤ index → index ≤ hi → ¬ s.Reclaims isCanonical index v id)
    : (s.commit (pruneWrites s isCanonical lo hi)).version v id = s.version v id := by
  refine version_prune.resolve_right fun ⟨_, index, hlo, hhi, hreclaims⟩ => ?_
  exact h index hlo hhi hreclaims

theorem version_of_prune {data : Bytes}
    (h : (s.commit (pruneWrites s isCanonical lo hi)).version v id = some data) :
    s.version v id = some data := by
  refine version_prune.elim (fun heq => heq ▸ h) fun ⟨hnone, _⟩ => ?_
  rw [hnone] at h
  cases h

theorem prunePtr_rollback (canonical : Bool) (index : Nat) (ptr : ResourceId × Nat) :
    (prunePtr canonical index ptr).rollback = [.delete (toLex (index, ptr.1))] := by
  unfold prunePtr
  split
  · rfl
  · split <;> rfl

theorem rollbackPtr_prune :
    (s.commit (pruneWrites s isCanonical lo hi)).rollbackPtr b id =
      if lo ≤ b ∧ b ≤ hi then none else s.rollbackPtr b id := by
  have hwrites : ∀ w ∈ (pruneWrites s isCanonical lo hi).rollback,
      ∃ index, lo ≤ index ∧ index ≤ hi ∧ ∃ ptr ∈ s.iterBatch index,
        w = .delete (toLex (index, ptr.1)) := by
    intro w hw
    have ⟨index, hindex, hw⟩ := List.mem_flatMap.mp hw
    have hw : w ∈ (WriteBatch.forEach (s.iterBatch index)
        (prunePtr (isCanonical index) index)).rollback := by simpa using List.mem_append.mp hw
    have ⟨ptr, hptr, hw⟩ := List.mem_flatMap.mp hw
    rw [prunePtr_rollback, List.mem_singleton] at hw
    exact ⟨index, (mem_pruneRange.mp hindex).1, (mem_pruneRange.mp hindex).2, ptr, hptr, hw⟩
  split
  · next hrange =>
    cases hptr : s.rollbackPtr b id with
    | some old =>
      refine Column.get_writeAll_of_same (fun w hw _ => ?_) ⟨.delete (toLex (b, id)), ?_, rfl⟩ _
      · have ⟨_, _, _, _, _, heq⟩ := hwrites w hw
        rw [heq]
        rfl
      · refine List.mem_flatMap.mpr ⟨b, mem_pruneRange.mpr hrange, List.mem_append_left _ ?_⟩
        exact List.mem_flatMap.mpr ⟨(id, old), s.mem_iterBatch.mpr hptr, by
          rw [prunePtr_rollback]; simp⟩
    | none =>
      refine (Column.get_writeAll_of_ne (fun w hw hkey => ?_) _).trans hptr
      have ⟨index, _, _, ptr, hmem, heq⟩ := hwrites w hw
      rw [heq] at hkey
      have hpair : (index, ptr.1) = (b, id) := hkey
      cases hpair
      have hsome : s.rollbackPtr b ptr.1 = some ptr.2 := s.mem_iterBatch.mp hmem
      rw [hptr] at hsome
      cases hsome
  · next hrange =>
    refine Column.get_writeAll_of_ne (fun w hw hkey => ?_) _
    have ⟨index, hlo, hhi, ptr, _, heq⟩ := hwrites w hw
    rw [heq] at hkey
    have hpair : (index, ptr.1) = (b, id) := hkey
    cases hpair
    exact hrange ⟨hlo, hhi⟩

theorem latest_prune : (s.commit (pruneWrites s isCanonical lo hi)).latest = s.latest := by
  have hnil : (pruneWrites s isCanonical lo hi).latest = [] := by
    refine List.flatMap_eq_nil_iff.mpr fun index _ => List.append_eq_nil_iff.mpr ⟨?_, rfl⟩
    refine List.flatMap_eq_nil_iff.mpr fun ptr _ => List.append_eq_nil_iff.mpr ⟨?_, rfl⟩
    split
    · rfl
    · split <;> rfl
  exact congrArg s.latest.writeAll hnil

theorem prunePtr_metadata (canonical : Bool) (index : Nat) (ptr : ResourceId × Nat) :
    (prunePtr canonical index ptr).metadata = [] := by
  unfold prunePtr
  split
  · rfl
  · split <;> rfl

theorem hasMetadata_prune :
    (s.commit (pruneWrites s isCanonical lo hi)).hasMetadata b =
      (s.hasMetadata b && !decide (lo ≤ b ∧ b ≤ hi)) := by
  have hwrites : (pruneWrites s isCanonical lo hi).metadata =
      (List.range' lo (hi + 1 - lo)).map .delete := by
    rw [List.map_eq_flatMap]
    refine List.flatMap_congr fun index _ => ?_
    have hnil : (WriteBatch.forEach (s.iterBatch index)
        (prunePtr (isCanonical index) index)).metadata = [] :=
      List.flatMap_eq_nil_iff.mpr fun ptr _ => prunePtr_metadata _ _ _
    exact congrArg (· ++ [Column.Write.delete index]) hnil
  change ((s.metadata.writeAll (pruneWrites s isCanonical lo hi).metadata).get b).isSome = _
  rw [hwrites]
  by_cases hrange : lo ≤ b ∧ b ≤ hi
  · have hgone : (s.metadata.writeAll ((List.range' lo (hi + 1 - lo)).map .delete)).get b = none := by
      refine Column.get_writeAll_of_same (fun w hw _ => ?_) ⟨.delete b, ?_, rfl⟩ _
      · have ⟨_, _, heq⟩ := List.mem_map.mp hw
        rw [← heq]
        rfl
      · exact List.mem_map.mpr ⟨b, mem_pruneRange.mpr hrange, rfl⟩
    rw [hgone]
    simp [hrange]
  · rw [Column.get_writeAll_of_ne fun w hw hkey => ?_]
    · simp [hrange, hasMetadata]
    · have ⟨index, hindex, heq⟩ := List.mem_map.mp hw
      rw [← heq] at hkey
      have hsame : index = b := hkey
      exact hrange (hsame ▸ mem_pruneRange.mp hindex)

end Prune

end StateStore

end Vprogs.Scheduler
