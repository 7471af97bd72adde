import Vprogs.Smt.HonestWalk

/-!
Completeness of honest proofs. For a stored map and distinct keys the proof of
the builder has the map's root, resolves every key to its value and yields, for
any new values, the root of the written map.
-/
namespace Vprogs.Smt

namespace Proof

variable {D : Type} {p : Proof D} {pl : Plan D} {keys : List Key}

/-- A walk over positions is a summary over rows once both agree. -/
theorem fold_single {H : Hasher D} {leafHashFn : Nat → CodecResult (HashedNode D)}
    {f : Nat → HashedNode D} {g : Row D → HashedNode D} {start : Nat}
    (h : ∀ (j : Nat) row, pl.rows[j]? = some row → f (start + j) = g row) :
    pl.fold (.single H leafHashFn) f start = pl.value H g := by
  induction pl generalizing start with
  | leaf row => exact h 0 row rfl
  | split l r ihl ihr =>
    rw [Plan.fold, Plan.value, ihl fun j row hr => h j row (getElem?_append_of_some hr),
      ihr fun j row hr => by
        rw [Nat.add_assoc]
        exact h _ row (getElem?_append_add hr)]
    rfl
  | beside n g child ih => rw [Plan.fold, Plan.value, ih h]; rfl

theorem fold_paired [DecidableEq D] {H : Hasher D}
    {leafHashFn : Nat → CodecResult (HashedNode D × HashedNode D)}
    {f : Nat → HashedNode D × HashedNode D} {g g' : Row D → HashedNode D} {start : Nat}
    (h : ∀ (j : Nat) row, pl.rows[j]? = some row → f (start + j) = (g row, g' row)) :
    pl.fold (.paired H leafHashFn) f start = (pl.value H g, pl.value H g') := by
  induction pl generalizing start with
  | leaf row => exact h 0 row rfl
  | split l r ihl ihr =>
    rw [Plan.fold, Plan.value, Plan.value, ihl fun j row hr => h j row (getElem?_append_of_some hr),
      ihr fun j row hr => by
        rw [Nat.add_assoc]
        exact h _ row (getElem?_append_add hr), Summarizer.paired_both]
  | beside n g child ih =>
    rw [Plan.fold, Plan.value, Plan.value, ih h, Summarizer.paired_besideSibling]

namespace Honest

theorem length_leaves (h : p.Honest keys pl) : p.leaves.length = pl.rows.length :=
  h.leaves.length_eq

theorem leaf_at (h : p.Honest keys pl) {pos : Nat} {row : Row D} (hrow : pl.rows[pos]? = some row) :
    ∃ leaf, p.leaves[pos]? = some leaf ∧ ProofBuilder.LeafOf p.keys leaf row :=
  exists_of_forall₂ h.leaves hrow

theorem key_eq (h : p.Honest keys pl) {i : Nat} {k : Key} (hk : keys[i]? = some k) :
    p.keys[i]? = some k := by
  have ⟨more, hmore⟩ := h.inputFirst
  rw [← hmore, getElem?_append_of_some hk]

theorem queriedKey_eq (h : p.Honest keys pl) {i : Nat} {k : Key} (hk : keys[i]? = some k) :
    p.queriedKey i = k := by
  rw [queriedKey, h.key_eq hk]
  rfl

/-- The leaf columns at a position are those of its row. -/
theorem columns (H : Hasher D) (h : p.Honest keys pl) {pos : Nat} {row : Row D}
    (hrow : pl.rows[pos]? = some row) :
    p.keyAt pos = row.key ∧ p.valueAt H pos = row.value ∧ p.depthAt pos = row.depth := by
  have ⟨leaf, hleaf, hdepth, hvalue, hkey⟩ := h.leaf_at hrow
  simp [keyAt, valueAt, depthAt, hleaf, hdepth, hvalue, hkey]

theorem checkSortedQueriedKeys_eq (h : p.Honest keys pl) (sorted : keys.Pairwise (· < ·)) :
    p.checkSortedQueriedKeys = .ok () := by
  have ⟨more, hmore⟩ := h.inputFirst
  unfold checkSortedQueriedKeys
  rw [h.length_memberships, ← hmore, List.length_append, if_pos (by omega), List.take_left,
    if_pos (isSortedBy_of_pairwise (sorted.imp fun hlt => decide_eq_true hlt))]
  rfl

/-- No key is answered by two rows. -/
theorem position_unique (nodup : (Plan.inputs pl.rows).Nodup) {i j : Nat} {a b : Row D} {k : Key}
    (hi : pl.rows[i]? = some a) (hj : pl.rows[j]? = some b) (hka : k ∈ a.inputs)
    (hkb : k ∈ b.inputs) : i = j := by
  have disjoint := (List.nodup_flatMap.mp nodup).2
  have ⟨hilt, hia⟩ := List.getElem?_eq_some_iff.mp hi
  have ⟨hjlt, hjb⟩ := List.getElem?_eq_some_iff.mp hj
  by_contra hne
  rw [List.pairwise_iff_getElem] at disjoint
  match Nat.lt_or_gt_of_ne hne with
  | .inl hlt =>
    have := disjoint i j hilt hjlt hlt
    rw [Function.onFun, hia, hjb] at this
    exact this hka hkb
  | .inr hlt =>
    have := disjoint j i hjlt hilt hlt
    rw [Function.onFun, hia, hjb] at this
    exact this hkb hka

/-- The members of a leaf are the input keys its row answers. -/
theorem mem_members (h : p.Honest keys pl) {pos i : Nat} {row : Row D} (hrow : pl.rows[pos]? = some row) :
    i ∈ p.membersByLeaf.at pos ↔ ∃ k, keys[i]? = some k ∧ k ∈ row.inputs ∧
      p.memberships[i]? = some (row.membership k pos) := by
  have hpos : pos < p.leaves.length := by
    rw [h.length_leaves]
    exact (List.getElem?_eq_some_iff.mp hrow).1
  have leafPos : ∀ (row : Row D) (k : Key) (q : Nat), (row.membership k q).leafPos = q := by
    intro row k q
    unfold Row.membership
    split <;> rfl
  rw [mem_membersByLeaf hpos]
  constructor
  · intro ⟨ms, hms, hq⟩
    have hlt : i < keys.length := by
      rw [← h.length_memberships]
      exact (List.getElem?_eq_some_iff.mp hms).1
    have hk : keys[i]? = some keys[i] := List.getElem?_eq_getElem hlt
    have ⟨q, row', hrow', hin, hms'⟩ := h.membership i keys[i] hk
    have hqpos : q = pos := by
      rw [hms', Option.some.injEq] at hms
      rw [← hq, ← hms, leafPos]
    subst hqpos
    rw [hrow, Option.some.injEq] at hrow'
    subst hrow'
    exact ⟨keys[i], hk, hin, hms'⟩
  · intro ⟨k, _, _, hms⟩
    exact ⟨_, hms, leafPos row k pos⟩

theorem nodup_queriedKeys (h : p.Honest keys pl) (nodup : keys.Nodup) {idxs : List Nat}
    (sub : idxs.Sublist (List.range keys.length)) : (idxs.map p.queriedKey).Nodup := by
  have hall : (List.range keys.length).map p.queriedKey = keys := by
    refine List.ext_getElem? fun i => ?_
    by_cases hi : i < keys.length
    · rw [List.getElem?_map, List.getElem?_range hi, Option.map_some,
        h.queriedKey_eq (List.getElem?_eq_getElem hi), List.getElem?_eq_getElem hi]
    · simp [hi]
  have := sub.map p.queriedKey
  rw [hall] at this
  exact nodup.sublist this

theorem resolved (h : p.Honest keys pl) (nodup : keys.Nodup) {pos : Nat} {row : Row D}
    (hrow : pl.rows[pos]? = some row)
    (path : ∀ k ∈ row.inputs, ∀ i < row.depth, k.getMsb i = row.key.getMsb i) (H : Hasher D) :
    Resolved p pos (p.membersByLeaf.at pos) := by
  obtain ⟨hkey, _, hdepth⟩ := h.columns H hrow
  have hpos : pos < p.leaves.length := by
    rw [h.length_leaves]
    exact (List.getElem?_eq_some_iff.mp hrow).1
  refine ⟨h.nodup_queriedKeys nodup ?_, fun i hi => ?_, fun i hi => ?_⟩
  · rw [membersByLeaf, Buckets.ofPositions_at _ _ hpos, Buckets.indicesOf, List.length_map,
      h.length_memberships]
    exact List.filter_sublist
  · obtain ⟨k, hk, hin, _⟩ := (h.mem_members hrow).mp hi
    intro j hj
    rw [h.queriedKey_eq hk, hkey]
    exact path k hin j (hdepth ▸ hj)
  · obtain ⟨k, hk, _, hms⟩ := (h.mem_members hrow).mp hi
    rw [h.queriedKey_eq hk, hkey, hms, Row.membership]
    by_cases own : row.key = k
    · exact .inl ⟨by rw [if_pos own], own.symm⟩
    · exact .inr ⟨by rw [if_neg own], Ne.symm own⟩

/-- The writes at a leaf are the writes to the keys its row answers. -/
theorem mem_updates (h : p.Honest keys pl) (nodup : (Plan.inputs pl.rows).Nodup) {newValue : Nat → D}
    {pos : Nat} {row : Row D} (hrow : pl.rows[pos]? = some row) {u : Key × D} :
    u ∈ p.updatesOf newValue (p.membersByLeaf.at pos) ↔
      u ∈ row.updates (p.allUpdates newValue) := by
  have hall : u ∈ p.allUpdates newValue ↔
      ∃ (i : Nat) (k : Key), keys[i]? = some k ∧ u = (k, newValue i) := by
    rw [allUpdates, mem_updatesOf, h.length_memberships]
    constructor
    · rintro ⟨i, hi, hu⟩
      have hk := List.getElem?_eq_getElem (List.mem_range.mp hi)
      exact ⟨i, _, hk, by rw [hu, h.queriedKey_eq hk]⟩
    · rintro ⟨i, k, hk, hu⟩
      exact ⟨i, List.mem_range.mpr (List.getElem?_eq_some_iff.mp hk).1,
        by rw [hu, h.queriedKey_eq hk]⟩
  rw [Row.updates, List.mem_filter, hall, decide_eq_true_eq, mem_updatesOf]
  constructor
  · rintro ⟨i, hi, hu⟩
    obtain ⟨k, hk, hin, _⟩ := (h.mem_members hrow).mp hi
    rw [h.queriedKey_eq hk] at hu
    exact ⟨⟨i, k, hk, hu⟩, by rw [hu]; exact hin⟩
  · rintro ⟨⟨i, k, hk, hu⟩, hin⟩
    rw [hu] at hin
    obtain ⟨q, row', hrow', hin', hms⟩ := h.membership i k hk
    obtain rfl := position_unique nodup hrow hrow' hin hin'
    rw [hrow, Option.some.injEq] at hrow'
    subst hrow'
    exact ⟨i, (h.mem_members hrow).mpr ⟨k, hk, hin, hms⟩, by rw [hu, h.queriedKey_eq hk]⟩

/-- The writes of a batch, one for every input key. -/
theorem allUpdates_eq (h : p.Honest keys pl) (newValue : Nat → D) :
    p.allUpdates newValue = keys.mapIdx fun i k => (k, newValue i) := by
  refine List.ext_getElem? fun i => ?_
  rw [allUpdates, updatesOf, h.length_memberships, List.getElem?_map, List.getElem?_mapIdx]
  by_cases hi : i < keys.length
  · have hk := List.getElem?_eq_getElem hi
    rw [List.getElem?_range hi, hk, Option.map_some, Option.map_some, h.queriedKey_eq hk]
  · rw [List.getElem?_eq_none (by simpa using hi), List.getElem?_eq_none (by omega)]
    rfl

section Stored

variable [DecidableEq D] {H : Hasher D} {S : StateMap H} {ks : List Key}

/-- The pre-state root is the map's. -/
theorem root_eq (h : p.Honest keys (plan H DEPTH ks S.entries)) (asked : Asked H DEPTH ks S.entries) :
    p.root H = .ok S.root := by
  have hleaf : ∀ j < (plan H DEPTH ks S.entries).rows.length, p.leafHash H (0 + j) =
      .ok (ProofTree.leafNode H p.keyAt (p.valueAt H) (0 + j)) := by
    intro j hj
    have ⟨row, hrow⟩ : ∃ row, (plan H DEPTH ks S.entries).rows[j]? = some row :=
      ⟨_, List.getElem?_eq_getElem hj⟩
    have ⟨leaf, hleaf, _, hvalue, hkey⟩ := h.leaf_at hrow
    have ⟨hk, hv, _⟩ := h.columns H hrow
    rw [Nat.zero_add, ProofTree.leafNode, hk, hv]
    refine ok_bind_iff.mpr ⟨leaf, by rw [Proof.leaf, hleaf]; rfl, ok_bind_iff.mpr
      ⟨row.key, by rw [leafKey, Proof.key, hkey]; rfl, by rw [hvalue]; rfl⟩⟩
  have hwalk := traverse_plan (s := Summarizer.single H (p.leafHash H)) h.carries (fits_plan asked)
    (Nat.le_refl _) hleaf
  rw [Nat.zero_add, ← h.length_leaves] at hwalk
  unfold root walk
  refine ok_bind_iff.mpr ⟨_, hwalk, ?_⟩
  rw [fold_single (g := fun row => HashedNode.leaf H row.key row.value), value_plan_leaf asked]
  · rfl
  · intro j row hrow
    have ⟨hk, hv, _⟩ := h.columns H hrow
    rw [Nat.zero_add, ProofTree.leafNode, hk, hv]

omit [DecidableEq D] in
/-- The value of a key is read off the row that answers it. -/
theorem get_of_answers {row : Row D} {k : Key} (h : row.Answers H k S.entries) :
    S.get k = if row.key = k then row.value else H.emptyHash := by
  have ⟨_, _, entry⟩ := h
  by_cases hk : row.key = k
  · rw [if_pos hk]
    by_cases dead : row.value = H.emptyHash
    · rw [dead]
      refine S.get_of_not_mem fun e he hek => ?_
      have ⟨⟨_, hv⟩, live⟩ := (entry e.2).mp (hek ▸ he)
      exact live (hv ▸ dead)
    · exact S.get_of_mem ((entry row.value).mpr ⟨⟨hk, rfl⟩, dead⟩)
  · rw [if_neg hk]
    exact S.get_of_not_mem fun e he hek => hk ((entry e.2).mp (hek ▸ he)).1.1

/-- Every queried key resolves to its value in the map. -/
theorem member_eq (h : p.Honest keys (plan H DEPTH ks S.entries))
    (asked : Asked H DEPTH ks S.entries) {i : Nat} {k : Key} (hk : keys[i]? = some k) :
    ∃ m, p.member i = .ok m ∧ m.key = k ∧ m.valueHash H = S.get k := by
  have ⟨pos, row, hrow, hin, hms⟩ := h.membership i k hk
  have ⟨leaf, hleaf, hdepth, hvalue, hkey⟩ := h.leaf_at hrow
  have answers := (answers_plan asked row (List.mem_of_getElem? hrow) k hin).2
  have hlk : p.leafKey leaf = .ok row.key := by rw [leafKey, Proof.key, hkey]; rfl
  have hqk : p.key i = .ok k := by rw [Proof.key, h.key_eq hk]; rfl
  have hl : p.leaf pos = .ok leaf := by rw [Proof.leaf, hleaf]; rfl
  rw [get_of_answers answers]
  unfold member
  rw [hms, Row.membership]
  by_cases own : row.key = k
  · refine ⟨⟨k, leaf, false⟩, ?_, rfl, by rw [if_pos own, ← hvalue]; rfl⟩
    rw [if_pos own]
    change p.memberPresent i pos = _
    unfold memberPresent
    rw [hqk]
    refine ok_bind_iff.mpr ⟨k, rfl, ok_bind_iff.mpr ⟨leaf, hl, ok_bind_iff.mpr ⟨row.key, hlk, ?_⟩⟩⟩
    rw [if_neg (not_not_intro own)]
    rfl
  · refine ⟨⟨k, leaf, true⟩, ?_, rfl, by rw [if_neg own]; rfl⟩
    rw [if_neg own]
    change p.memberAbsent i pos = _
    unfold memberAbsent
    rw [hqk]
    refine ok_bind_iff.mpr ⟨k, rfl, ok_bind_iff.mpr ⟨leaf, hl, ok_bind_iff.mpr ⟨row.key, hlk, ?_⟩⟩⟩
    rw [if_neg own, hdepth, (Key.sharesPrefix_iff k row.key row.depth).mpr ⟨answers.1, answers.2.1⟩]
    rfl

/-- For any new values the paired walk yields the map's root and the root of the
written map. -/
theorem computeRoots_eq (h : p.Honest keys (plan H DEPTH ks S.entries))
    (asked : Asked H DEPTH ks S.entries) (hperm : ks.Perm keys) (newValue : Nat → D) :
    p.computeRoots H newValue = .ok (S.root, (S.setAll (p.allUpdates newValue)).root) := by
  have inputsNodup : (Plan.inputs (plan H DEPTH ks S.entries).rows).Nodup := by
    rw [inputs_plan asked]
    exact List.nodup_iff_pairwise_ne.mpr (asked.sorted.imp BitVec.ne_of_lt)
  have nodup : keys.Nodup := by
    rw [← hperm.nodup_iff, ← inputs_plan asked]
    exact inputsNodup
  have distinct : ((p.allUpdates newValue).map Prod.fst).Nodup := by
    rw [allUpdates, updatesOf, List.map_map]
    exact h.nodup_queriedKeys nodup (by rw [h.length_memberships])
  have fits := fits_plan asked
  have pair : ∀ (pos : Nat) row, (plan H DEPTH ks S.entries).rows[pos]? = some row →
      p.leafPair H pos (p.membersByLeaf.at pos) newValue =
        .ok (HashedNode.leaf H row.key row.value, Row.post H (p.allUpdates newValue) row) := by
    intro pos row hrow
    have hmem := List.mem_of_getElem? hrow
    obtain ⟨hkey, hvalue, hdepth⟩ := h.columns H hrow
    obtain ⟨leaf, hleaf, _, _, hleafKey⟩ := h.leaf_at hrow
    have hbound := (fits.depth row hmem).2
    have path : ∀ k ∈ row.inputs, ∀ i < row.depth, k.getMsb i = row.key.getMsb i :=
      fun k hk => (answers_plan asked row hmem k hk).2.2.1
    have res := h.resolved nodup hrow path H
    have inRange : ∀ i ∈ p.membersByLeaf.at pos, ∃ k, p.keys[i]? = some k := by
      intro i hi
      obtain ⟨k, hk, _⟩ := (h.mem_members hrow).mp hi
      exact ⟨k, h.key_eq hk⟩
    rw [leafPair_ok res (by rw [hdepth]; omega : p.depthAt pos + (256 - row.depth) = 256) hleaf
      hleafKey inRange, ProofTree.leafNode, hkey, hvalue, Row.post]
    have hrowEntries : ProofTree.row H p.keyAt (p.valueAt H) pos = row.entries H := by
      rw [ProofTree.row, Row.entries, hkey, hvalue]
    rw [hrowEntries]
    have entriesNodup : ((row.entries H).map Prod.fst).Nodup := by
      unfold Row.entries
      split <;> simp
    have same : ∀ u, u ∈ p.updatesOf newValue (p.membersByLeaf.at pos) ↔
        u ∈ row.updates (p.allUpdates newValue) := fun u => h.mem_updates inputsNodup hrow
    have sameKeys : ∀ k, k ∈ (p.updatesOf newValue (p.membersByLeaf.at pos)).map Prod.fst ↔
        k ∈ (row.updates (p.allUpdates newValue)).map Prod.fst := by
      intro k
      simp only [List.mem_map, same]
    refine congrArg (fun n => Except.ok (_, n)) (canon_congr
      (nodup_applyUpdates res.nodup_updates entriesNodup)
      (nodup_applyUpdates (distinct.sublist (List.filter_sublist.map _)) entriesNodup) fun e => ?_)
    rw [mem_applyUpdates, mem_applyUpdates, same, sameKeys]
    exact Iff.rfl
  have hwalk := traverse_plan (s := Summarizer.paired H
    (fun pos => p.leafPair H pos (p.membersByLeaf.at pos) newValue))
    (f := fun pos => ((p.leafPair H pos (p.membersByLeaf.at pos) newValue).toOption.getD
      (HashedNode.empty H, HashedNode.empty H))) h.carries fits (Nat.le_refl _) fun j hj => by
        have hrow := List.getElem?_eq_getElem hj
        rw [Nat.zero_add]
        simp only [Summarizer.paired, pair j _ hrow]
        rfl
  rw [Nat.zero_add, ← h.length_leaves] at hwalk
  unfold computeRoots walkPair
  refine ok_bind_iff.mpr ⟨_, hwalk, ?_⟩
  rw [fold_paired (g := fun row => HashedNode.leaf H row.key row.value)
    fun j row hrow => by rw [Nat.zero_add]; simp only [pair j row hrow]; rfl]
  have hsub : ∀ u ∈ p.allUpdates newValue, u.1 ∈ ks := by
    intro u hu
    rw [allUpdates, mem_updatesOf, h.length_memberships] at hu
    obtain ⟨i, hi, heq⟩ := hu
    have hk := List.getElem?_eq_getElem (List.mem_range.mp hi)
    rw [heq, h.queriedKey_eq hk]
    exact hperm.mem_iff.mpr (List.getElem_mem _)
  rw [value_plan_leaf asked, value_plan asked (p.allUpdates newValue) hsub,
    canon_congr (nodup_applyUpdates distinct S.segment.nodup) (S.setAll _).segment.nodup
      fun e => (S.mem_setAll distinct).symm]
  rfl

end Stored

end Honest

end Proof

end Vprogs.Smt
