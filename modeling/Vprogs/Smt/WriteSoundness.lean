import Vprogs.Smt.LeafUpdate

/-!
Recomputing the root after a batch of writes. The post-state walk is compared
with the canonical tree of the updated map. A node that only promoted a leaf before
may be hashed afterwards, and then relies on rows and siblings that the pre-state
root never authenticated.
-/
namespace Vprogs.Smt

variable {D : Type} [DecidableEq D]

theorem pairwise_of_isSortedBy {ks : List Key}
    (h : isSortedBy (fun a b => decide (a < b)) ks = true) : ks.Pairwise fun a b => a < b := by
  induction ks with
  | nil => simp
  | cons a ks ih =>
    cases ks with
    | nil => simp
    | cons b rest =>
      rw [isSortedBy, Bool.and_eq_true, decide_eq_true_eq] at h
      have tail := ih h.2
      refine List.pairwise_cons.mpr ⟨fun c hc => ?_, tail⟩
      rcases List.mem_cons.mp hc with rfl | hc
      · exact h.1
      · exact BitVec.lt_trans h.1 ((List.pairwise_cons.mp tail).1 c hc)

/-- Updates that reach each entry through its own row may be applied row by row. -/
theorem applyUpdates_rows_perm {H : Hasher D} {ps : List Nat} {rows updates : Nat → List (Key × D)}
    {hidden all : List (Key × D)} (nodup : (ps.flatMap rows ++ hidden).Nodup)
    (hall : all.Perm (ps.flatMap updates))
    (own : ∀ pos ∈ ps, ∀ u ∈ updates pos, ∀ e ∈ ps.flatMap rows ++ hidden, e.1 = u.1 → e ∈ rows pos) :
    (ps.flatMap (fun pos => applyUpdates H (updates pos) (rows pos)) ++ hidden).Perm
      (applyUpdates H all (ps.flatMap rows ++ hidden)) := by
  obtain ⟨nodupRows, _, apart⟩ := List.nodup_append.mp nodup
  have mem_all : ∀ k, k ∈ all.map Prod.fst ↔ ∃ pos ∈ ps, ∃ u ∈ updates pos, u.1 = k := by
    intro k
    rw [(hall.map Prod.fst).mem_iff, List.mem_map]
    simp only [List.mem_flatMap]
    constructor
    · rintro ⟨u, ⟨pos, hp, hu⟩, rfl⟩
      exact ⟨pos, hp, u, hu, rfl⟩
    · rintro ⟨pos, hp, u, hu, rfl⟩
      exact ⟨u, ⟨pos, hp, hu⟩, rfl⟩
  have kept : hidden.filter (fun e => decide (e.1 ∉ all.map Prod.fst)) = hidden := by
    refine List.filter_eq_self.mpr fun e he => decide_eq_true fun hk => ?_
    obtain ⟨pos, hp, u, hu, hk⟩ := (mem_all _).mp hk
    have inRow := own pos hp u hu e (List.mem_append_right _ he) hk.symm
    exact apart e (List.mem_flatMap.mpr ⟨pos, hp, inRow⟩) e he rfl
  have rowwise : ∀ pos ∈ ps, (rows pos).filter (fun e => decide (e.1 ∉ all.map Prod.fst)) =
      (rows pos).filter fun e => decide (e.1 ∉ (updates pos).map Prod.fst) := by
    intro pos hp
    refine List.filter_congr fun e he => decide_eq_decide.mpr (not_congr ?_)
    rw [mem_all, List.mem_map]
    constructor
    · rintro ⟨pos', hp', u, hu, hk⟩
      have there := own pos' hp' u hu e
        (List.mem_append_left _ (List.mem_flatMap.mpr ⟨pos, hp, he⟩)) hk.symm
      have same : pos = pos' := by
        by_contra ne
        have disjoint := (List.nodup_flatMap.mp nodupRows).2
        have : Std.Symm (Function.onFun List.Disjoint rows) := ⟨fun _ _ h => h.symm⟩
        exact disjoint.forall hp hp' ne he there
      exact ⟨u, same ▸ hu, hk⟩
    · rintro ⟨u, hu, hk⟩
      exact ⟨pos, hp, u, hu, hk⟩
  rw [applyUpdates, List.filter_append, kept, List.filter_flatMap,
    List.flatMap_congr rowwise]
  refine ((List.flatMap_append_perm ps _ _).symm.append_right hidden).trans ?_
  rw [← List.filter_flatMap, List.append_assoc, List.append_assoc]
  exact (List.perm_append_comm.trans ((hall.filter _).symm.append_left hidden)).append_left _

namespace Proof

variable {H : Hasher D} {p : Proof D} {newValue : Nat → D} {members : Nat → Member D} {pos : Nat}

/-- The entries a row stands for after the update. -/
def rowsAfter (H : Hasher D) (p : Proof D) (newValue : Nat → D) (pos : Nat) : List (Key × D) :=
  applyUpdates H (p.updatesOf newValue (p.membersByLeaf.at pos))
    (ProofTree.row H p.keyAt (p.valueAt H) pos)

/-- Wherever the walk hashes a node after the update, its children stand on their sides. -/
def SidedAfter (H : Hasher D) (p : Proof D) (newValue : Nat → D) : Prop :=
  ∃ t, p.shape = .ok t ∧ t.Sided H (p.rowsAfter H newValue) p.keyAt 0

/-- All writes of a batch, by membership. -/
def allUpdates (p : Proof D) (newValue : Nat → D) : List (Key × D) :=
  p.updatesOf newValue (List.range p.memberships.length)

omit [DecidableEq D] in
theorem map_queriedKey_range (h : p.memberships.length ≤ p.keys.length) :
    (List.range p.memberships.length).map p.queriedKey = p.keys.take p.memberships.length := by
  refine List.ext_getElem? fun i => ?_
  by_cases hi : i < p.memberships.length
  · have hk : i < p.keys.length := by omega
    simp [hi, queriedKey, List.getElem?_eq_getElem hk]
  · simp [hi]

omit [DecidableEq D] in
theorem nodup_queriedKey (sorted : p.checkSortedQueriedKeys = .ok ()) :
    ((List.range p.memberships.length).map p.queriedKey).Nodup := by
  unfold checkSortedQueriedKeys at sorted
  split at sorted
  · rename_i hlen
    split at sorted
    · rename_i hs
      rw [map_queriedKey_range hlen, List.nodup_iff_pairwise_ne]
      exact (pairwise_of_isSortedBy hs).imp fun h => BitVec.ne_of_lt h
    · cases sorted
  · cases sorted

omit [DecidableEq D] in
theorem nodup_allUpdates (sorted : p.checkSortedQueriedKeys = .ok ()) (newValue : Nat → D) :
    ((p.allUpdates newValue).map Prod.fst).Nodup := by
  rw [allUpdates, updatesOf, List.map_map]
  exact nodup_queriedKey sorted

omit [DecidableEq D] in
theorem mem_membersByLeaf {pos : Nat} (hp : pos < p.leaves.length) {i : Nat} :
    i ∈ p.membersByLeaf.at pos ↔
      ∃ ms, p.memberships[i]? = some ms ∧ ms.leafPos = pos := by
  rw [membersByLeaf, Buckets.ofPositions_at _ _ hp, Buckets.indicesOf, List.mem_filter,
    List.mem_range, List.length_map, List.getElem?_map, beq_iff_eq, Option.map_eq_some_iff]
  refine ⟨fun h => h.2, fun h => ⟨?_, h⟩⟩
  obtain ⟨ms, hms, _⟩ := h
  exact (List.getElem?_eq_some_iff.mp hms).1

omit [DecidableEq D] in
theorem resolved_at (sorted : p.checkSortedQueriedKeys = .ok ())
    (hMember : ∀ idx < p.memberships.length, p.member idx = .ok (members idx)) {pos : Nat}
    (hp : pos < p.leaves.length) : Resolved p pos (p.membersByLeaf.at pos) := by
  have facts : ∀ i ∈ p.membersByLeaf.at pos, ∃ ms, p.memberships[i]? = some ms ∧
      ms.leafPos = pos ∧ p.queriedKey i = (members i).key ∧
      ProofTree.SharesPath p.depthAt p.keyAt (members i).key pos ∧
      ((ms = .present pos ∧ p.keyAt pos = (members i).key) ∨
        (ms = .absent pos ∧ p.keyAt pos ≠ (members i).key)) := by
    intro i hi
    obtain ⟨ms, hms, rfl⟩ := (mem_membersByLeaf hp).mp hi
    have hm := hMember i (List.getElem?_eq_some_iff.mp hms).1
    obtain ⟨ms', leafKey, hms', hk, hl, hlk, h⟩ := member_eq_ok hm
    obtain rfl : ms' = ms := Option.some.inj (hms'.symm.trans hms)
    have hkeyAt : p.keyAt ms'.leafPos = leafKey := by simp [keyAt, hl, hlk]
    refine ⟨ms', hms, rfl, by simp [queriedKey, hk],
      sharesPath_of_member hl hlk (h.imp (·.2.2) (·.2.2.2)), ?_⟩
    rw [hkeyAt]
    exact h.imp (fun h => ⟨h.1, h.2.2⟩) fun h => ⟨h.1, h.2.2.1⟩
  refine ⟨?_, fun i hi => ?_, fun i hi => ?_⟩
  · refine (nodup_queriedKey sorted).sublist ?_
    rw [membersByLeaf, Buckets.ofPositions_at _ _ hp, Buckets.indicesOf, List.length_map]
    exact List.filter_sublist.map _
  · obtain ⟨_, _, _, hk, path, _⟩ := facts i hi
    rwa [hk]
  · obtain ⟨ms, hms, _, hk, _, h⟩ := facts i hi
    rw [hms, hk]
    rcases h with ⟨rfl, h⟩ | ⟨rfl, h⟩
    · exact .inl ⟨rfl, h.symm⟩
    · exact .inr ⟨rfl, h.symm⟩

/-- Both roots of the paired walk, over the shape the pre-state walk has. -/
theorem computeRoots_eq_ok {prev post : D} (h : p.computeRoots H newValue = .ok (prev, post)) :
    ∃ t postNode, p.shape = .ok t ∧ t.positions = List.range p.leaves.length ∧
      t.Leveled p.depthAt DEPTH ∧
      prev = (t.eval H (ProofTree.leafNode H p.keyAt (p.valueAt H))).hash ∧
      post = (t.eval H postNode).hash ∧
      ∀ pos ∈ t.positions, p.leafPair H pos (p.membersByLeaf.at pos) newValue =
        .ok (ProofTree.leafNode H p.keyAt (p.valueAt H) pos, postNode pos) := by
  obtain ⟨⟨⟨prevNode, postRoot⟩, c'⟩, hw, hd⟩ := ok_bind_iff.mp h
  cases hd
  let postNode : Nat → HashedNode D := fun pos =>
    match p.leafPair H pos (p.membersByLeaf.at pos) newValue with
    | .ok x => x.2
    | .error _ => HashedNode.empty H
  obtain ⟨t, ht, he⟩ := traverse_follows_shape
    (fun x t => t.eval H (ProofTree.leafNode H p.keyAt (p.valueAt H)) = x.1 ∧
      t.eval H postNode = x.2 ∧
      ∀ pos ∈ t.positions, p.leafPair H pos (p.membersByLeaf.at pos) newValue =
        .ok (ProofTree.leafNode H p.keyAt (p.valueAt H) pos, postNode pos))
    ⟨rfl, rfl, by simp [ProofTree.positions]⟩
    (by
      intro pos x hx
      change p.leafPair H pos (p.membersByLeaf.at pos) newValue = .ok x at hx
      have hpost : postNode pos = x.2 := by simp only [postNode, hx]
      have hpre : ProofTree.leafNode H p.keyAt (p.valueAt H) pos = x.1 := by
        obtain ⟨leaf, hl, hx⟩ := ok_bind_iff.mp hx
        obtain ⟨k, hk, hx⟩ := ok_bind_iff.mp hx
        obtain ⟨upd, _, hx⟩ := ok_bind_iff.mp hx
        rw [Proof.leaf, okOr_eq_ok] at hl
        rw [Proof.leafKey, Proof.key, okOr_eq_ok] at hk
        have hnode : ProofTree.leafNode H p.keyAt (p.valueAt H) pos =
            HashedNode.leaf H k leaf.valueHash := by
          simp [ProofTree.leafNode, keyAt, valueAt, hl, hk]
        rw [hnode]
        cases upd with
        | unchanged => cases hx; rfl
        | single v => cases hx; rfl
        | multiple es =>
          obtain ⟨node, _, hx⟩ := ok_bind_iff.mp hx
          cases hx
          rfl
      refine ⟨hpre, hpost, fun q hq => ?_⟩
      obtain rfl : q = pos := by simpa [ProofTree.positions] using hq
      exact hx.trans (by rw [hpre, hpost]))
    (by
      rintro x y l r ⟨hx, hx', lx⟩ ⟨hy, hy', ly⟩
      rw [Summarizer.paired_both, ← hx, ← hx', ← hy, ← hy']
      exact ⟨rfl, rfl, fun pos hp => (List.mem_append.mp hp).elim (lx pos) (ly pos)⟩)
    (by
      rintro x u n g ⟨hx, hx', lx⟩
      rw [Summarizer.paired_besideSibling, ← hx, ← hx']
      exact ⟨ProofTree.eval_besideSibling .., ProofTree.eval_besideSibling ..,
        fun pos hp => lx pos (ProofTree.mem_positions_besideSibling.mp hp)⟩) hw
  obtain ⟨_, positions, leveled⟩ := shape_spec (Nat.zero_le _) rfl ht
  refine ⟨t, postNode, by simp only [shape, ht]; rfl, ?_, leveled,
    congrArg HashedNode.hash he.1.symm, congrArg HashedNode.hash he.2.1.symm, he.2.2⟩
  rw [positions, List.range_eq_range']
  rfl

section Accepted

variable (sorted : p.checkSortedQueriedKeys = .ok ())
  (hMember : ∀ idx < p.memberships.length, p.member idx = .ok (members idx))

include hMember

/-- A queried entry of the state is the entry of the row that answers it. -/
theorem mem_row_of_queried {S : StateMap H} (hValue : ∀ idx < p.memberships.length, ∀ k,
      p.keys[idx]? = some k → (members idx).valueHash H = S.get k)
    {pos : Nat} (hp : pos < p.leaves.length) {u : Key × D}
    (hu : u ∈ p.updatesOf newValue (p.membersByLeaf.at pos)) {e : Key × D} (he : e ∈ S.entries)
    (hk : e.1 = u.1) : e ∈ ProofTree.row H p.keyAt (p.valueAt H) pos := by
  obtain ⟨i, hi, rfl⟩ := mem_updatesOf.mp hu
  change e.1 = p.queriedKey i at hk
  obtain ⟨ms, hms, rfl⟩ := (mem_membersByLeaf hp).mp hi
  have hlt := (List.getElem?_eq_some_iff.mp hms).1
  obtain ⟨ms', leafKey, hms', hkey, hl, hlk, h⟩ := member_eq_ok (hMember i hlt)
  obtain rfl : ms' = ms := Option.some.inj (hms'.symm.trans hms)
  have hq : p.queriedKey i = (members i).key := by simp [queriedKey, hkey]
  have answer : (members i).valueHash H = e.2 := by
    rw [hValue i hlt _ hkey, ← hq, ← hk, S.get_of_mem he]
  rw [Member.valueHash] at answer
  rcases h with ⟨_, present, rfl⟩ | ⟨_, absent, _⟩
  · rw [present] at answer
    have hval : p.valueAt H ms'.leafPos = e.2 := by simpa [valueAt, hl] using answer
    refine ProofTree.mem_row.mpr ⟨Prod.ext ?_ hval.symm, hval ▸ S.live e he⟩
    rw [hk, hq]
    simp [keyAt, hl, hlk]
  · rw [absent] at answer
    exact absurd answer.symm (S.live e he)

include sorted

omit [DecidableEq D] in
/-- Every write belongs to the row its membership points at. -/
theorem allUpdates_perm (newValue : Nat → D) : (p.allUpdates newValue).Perm
    ((List.range p.leaves.length).flatMap fun pos => p.updatesOf newValue (p.membersByLeaf.at pos)) := by
  have mem : ∀ {pos : Nat} {u : Key × D}, pos ∈ List.range p.leaves.length →
      u ∈ p.updatesOf newValue (p.membersByLeaf.at pos) →
      ∃ i ms, p.memberships[i]? = some ms ∧ ms.leafPos = pos ∧ u = (p.queriedKey i, newValue i) := by
    intro pos u hp hu
    obtain ⟨i, hi, rfl⟩ := mem_updatesOf.mp hu
    obtain ⟨ms, hms, hpos⟩ := (mem_membersByLeaf (List.mem_range.mp hp)).mp hi
    exact ⟨i, ms, hms, hpos, rfl⟩
  refine (List.perm_ext_iff_of_nodup ((nodup_allUpdates sorted newValue).of_map _) ?_).mpr fun u => ?_
  · refine List.nodup_flatMap.mpr ⟨fun pos hp => ?_, ?_⟩
    · exact (resolved_at sorted hMember (List.mem_range.mp hp)).nodup_updates.of_map _
    · refine List.nodup_range.imp_of_mem fun hp hq hne u hu hu' => ?_
      -- one key belongs to one membership, which points at one row
      obtain ⟨i, ms, hms, hpos, rfl⟩ := mem hp hu
      obtain ⟨j, ms', hms', hpos', same⟩ := mem hq hu'
      have hij : i = j := List.inj_on_of_nodup_map (nodup_queriedKey sorted)
        (List.mem_range.mpr (List.getElem?_eq_some_iff.mp hms).1)
        (List.mem_range.mpr (List.getElem?_eq_some_iff.mp hms').1) (congrArg Prod.fst same)
      subst hij
      obtain rfl : ms' = ms := Option.some.inj (hms'.symm.trans hms)
      exact hne (hpos.symm.trans hpos')
  · rw [List.mem_flatMap]
    constructor
    · intro hu
      obtain ⟨i, hi, rfl⟩ := mem_updatesOf.mp hu
      obtain ⟨ms, _, hms, _, hl, _, _⟩ := member_eq_ok (hMember i (List.mem_range.mp hi))
      have hp := (List.getElem?_eq_some_iff.mp hl).1
      exact ⟨ms.leafPos, List.mem_range.mpr hp,
        mem_updatesOf.mpr ⟨i, (mem_membersByLeaf hp).mpr ⟨ms, hms, rfl⟩, rfl⟩⟩
    · rintro ⟨pos, hp, hu⟩
      obtain ⟨i, ms, hms, _, rfl⟩ := mem hp hu
      exact mem_updatesOf.mpr ⟨i, List.mem_range.mpr (List.getElem?_eq_some_iff.mp hms).1, rfl⟩

theorem rows_after {t : ProofTree D} (positions : t.positions = List.range p.leaves.length)
    {postNode : Nat → HashedNode D}
    (hPair : ∀ pos ∈ t.positions, p.leafPair H pos (p.membersByLeaf.at pos) newValue =
      .ok (ProofTree.leafNode H p.keyAt (p.valueAt H) pos, postNode pos)) :
    t.Rows H p.depthAt p.keyAt (p.rowsAfter H newValue) postNode := by
  have resolved : ∀ pos ∈ t.positions, Resolved p pos (p.membersByLeaf.at pos) := by
    intro pos hp
    rw [positions, List.mem_range] at hp
    exact resolved_at sorted hMember hp
  exact ⟨fun pos hp _ hn => (resolved pos hp).segment_updated hn,
    fun pos hp _ hn => (leafPair_eq_ok (resolved pos hp) hn (hPair pos hp)).2,
    fun pos hp => (resolved pos hp).path_updated⟩

/-- Over an authenticated pre-state, rows after the update and siblings hold the updated map. -/
theorem canon_held_after {S : StateMap H} {t : ProofTree D} {hs : List (Key × D)}
    (positions : t.positions = List.range p.leaves.length)
    (perm : (t.held (ProofTree.row H p.keyAt (p.valueAt H)) ++ hs).Perm S.entries)
    (hValue : ∀ idx < p.memberships.length, ∀ k, p.keys[idx]? = some k →
      (members idx).valueHash H = S.get k) :
    canon H DEPTH (t.held (p.rowsAfter H newValue) ++ hs) =
      canon H DEPTH (S.setAll (p.allUpdates newValue)).entries := by
  have nodup : ((t.held (ProofTree.row H p.keyAt (p.valueAt H)) ++ hs).map Prod.fst).Nodup :=
    (perm.map Prod.fst).nodup_iff.mpr S.segment.nodup
  have updated : (t.held (p.rowsAfter H newValue) ++ hs).Perm (applyUpdates H
      (p.allUpdates newValue) (t.held (ProofTree.row H p.keyAt (p.valueAt H)) ++ hs)) := by
    have whole := nodup.of_map
    rw [ProofTree.held, positions] at perm whole
    rw [ProofTree.held, ProofTree.held, positions]
    refine applyUpdates_rows_perm whole (allUpdates_perm sorted hMember newValue) ?_
    intro pos hp u hu e he hk
    exact mem_row_of_queried hMember hValue (List.mem_range.mp hp) hu (perm.mem_iff.mp he) hk
  rw [canon_perm updated]
  refine canon_congr (nodup_applyUpdates (nodup_allUpdates sorted newValue) nodup)
    (S.setAll _).segment.nodup fun e => ?_
  rw [S.mem_setAll (nodup_allUpdates sorted newValue), mem_applyUpdates, mem_applyUpdates,
    perm.mem_iff]

/-- When all rows are empty before and after, the update leaves the map as it was. -/
theorem canon_setAll_of_empty {S : StateMap H} {t : ProofTree D}
    (positions : t.positions = List.range p.leaves.length)
    (before : ∀ pos ∈ t.positions, ProofTree.row H p.keyAt (p.valueAt H) pos = [])
    (after : ∀ pos ∈ t.positions, p.rowsAfter H newValue pos = [])
    (hValue : ∀ idx < p.memberships.length, ∀ k, p.keys[idx]? = some k →
      (members idx).valueHash H = S.get k) :
    canon H DEPTH (S.setAll (p.allUpdates newValue)).entries = canon H DEPTH S.entries := by
  refine canon_congr (S.setAll _).segment.nodup S.segment.nodup fun e => ?_
  have byRow : ∀ u ∈ p.allUpdates newValue, ∃ pos ∈ t.positions,
      u ∈ p.updatesOf newValue (p.membersByLeaf.at pos) := by
    intro u hu
    rw [positions]
    exact List.mem_flatMap.mp ((allUpdates_perm sorted hMember newValue).mem_iff.mp hu)
  rw [S.mem_setAll (nodup_allUpdates sorted newValue), mem_applyUpdates]
  constructor
  · rintro (⟨he, _⟩ | ⟨hu, live⟩)
    · exact he
    · obtain ⟨pos, hp, hu⟩ := byRow e hu
      have there : e ∈ p.rowsAfter H newValue pos := mem_applyUpdates.mpr (.inr ⟨hu, live⟩)
      rw [after pos hp] at there
      cases there
  · intro he
    refine .inl ⟨he, fun hk => ?_⟩
    obtain ⟨u, hu, hk⟩ := List.mem_map.mp hk
    obtain ⟨pos, hp, hu⟩ := byRow u hu
    have there := mem_row_of_queried hMember hValue
      (List.mem_range.mp (positions ▸ hp)) hu he hk.symm
    rw [before pos hp] at there
    cases there

end Accepted

/-- The post-state root of an accepted proof is the root of the updated map exactly when
the children of every node hashed after the update stand on their sides. -/
theorem computeRoots_post_iff (ideal : H.Ideal) (S : StateMap H) (p : Proof D)
    (sorted : p.checkSortedQueriedKeys = .ok ()) (members : Nat → Member D)
    (hMember : ∀ idx < p.memberships.length, p.member idx = .ok (members idx))
    (hValue : ∀ idx < p.memberships.length, ∀ k, p.keys[idx]? = some k →
      (members idx).valueHash H = S.get k)
    (hRoot : p.root H = .ok S.root) (newValue : Nat → D) (prev post : D)
    (h : p.computeRoots H newValue = .ok (prev, post)) :
    prev = S.root ∧
      (post = (S.setAll (p.allUpdates newValue)).root ↔ p.SidedAfter H newValue) := by
  obtain ⟨t, hShape, walked, positions, leveled, hHash⟩ := root_eq_ok hRoot
  obtain ⟨t', postNode, hShape', _, _, hPrev, hPost, hPair⟩ := computeRoots_eq_ok h
  obtain rfl : t' = t := Except.ok.inj (hShape'.symm.trans hShape)
  have rs := p.rows_leaves H t'
  have rsAfter := rows_after sorted hMember positions hPair
  have sidedIff : p.SidedAfter H newValue ↔ t'.Sided H (p.rowsAfter H newValue) p.keyAt 0 := by
    simp only [SidedAfter, hShape, Except.ok.injEq, exists_eq_left']
  refine ⟨hPrev.trans hHash, ?_⟩
  rw [sidedIff, hPost, StateMap.root]
  constructor
  · intro same
    rcases ProofTree.genuine_or_sibling (rsAfter.genuine leveled) walked with genuine | ⟨_, isLeaf, _⟩
    · exact ProofTree.sided_of_eval ideal (S.setAll _).segment leveled rsAfter
        (genuine.eq_of_hash ideal (ProofTree.genuine_canon (S.setAll _).segment) same)
    · refine ProofTree.sided_of_kind_ne ?_
      rw [← ProofTree.eval_kind rsAfter leveled, isLeaf]
      decide
  · intro sided
    by_cases genuine : ProofTree.Genuine H
      (t'.eval H (ProofTree.leafNode H p.keyAt (p.valueAt H)))
    · have he := genuine.eq_of_hash ideal (ProofTree.genuine_canon S.segment) hHash
      obtain ⟨hs, hid, perm⟩ := ProofTree.exists_hidden ideal S.segment leveled rs he
      rw [ProofTree.eval_of_sided ideal (show DEPTH ≤ 256 from Nat.le_refl _) leveled rsAfter hid sided
        (by rintro n rfl; exact walked.elim),
        canon_held_after sorted hMember positions perm hValue]
    · -- the root is a promoted leaf sibling that is no leaf, so no row may hold anything
      obtain ⟨dead, isLeaf, promoted⟩ :=
        (ProofTree.genuine_or_sibling (rs.genuine leveled) walked).resolve_left genuine
      have still := sided.rows_empty walked leveled rsAfter promoted isLeaf genuine
      have before := fun pos hp => (rs.nil_iff leveled hp).mp (dead pos hp)
      have after := fun pos hp => (rsAfter.nil_iff leveled hp).mp (still pos hp)
      rw [canon_setAll_of_empty sorted hMember positions before after hValue]
      refine Eq.trans ?_ hHash
      rw [ProofTree.eval_congr fun pos hp => ?_]
      have hd : p.depthAt pos + (256 - p.depthAt pos) = 256 := by
        have := leveled.depth_le hp
        omega
      rw [rs.summary pos hp _ hd, rsAfter.summary pos hp _ hd, before pos hp, after pos hp]

end Proof

def emptyState : StateMap codeHasher where
  entries := []
  sorted := by simp
  live := by simp

/-- Two absent keys on the left, below a sibling that claims to be empty. -/
def twoAbsent (siblingHash : Nat) : Proof Nat where
  keys := [0, 1 <<< 254]
  leaves := [⟨2, 0, 0⟩, ⟨2, 1, 0⟩]
  siblings := [⟨HashedNode.EMPTY, siblingHash⟩]
  topology := [2]
  memberships := [.present 0, .present 1]

def twoAbsentMember (idx : Nat) : Member Nat :=
  if idx = 0 then ⟨0, ⟨2, 0, 0⟩, false⟩ else ⟨1 <<< 254, ⟨2, 1, 0⟩, false⟩

/-- Creates both keys. -/
def twoValues (idx : Nat) : Nat := if idx = 0 then 7 else 8

def twoAbsentRoots (siblingHash : Nat) : Nat × Nat :=
  match (twoAbsent siblingHash).computeRoots codeHasher twoValues with
  | .ok roots => roots
  | .error _ => (0, 0)

/-- A hash hidden in the empty sibling is not part of the pre-state root but
ends up in the post-state root. -/
theorem twoAbsent_hidden_hash :
    codeHasher.Ideal ∧ (twoAbsent 5).checkSortedQueriedKeys = .ok () ∧
      (∀ idx < 2, (twoAbsent 5).member idx = .ok (twoAbsentMember idx)) ∧
      (∀ idx < 2, (twoAbsentMember idx).valueHash codeHasher =
        emptyState.get (twoAbsentMember idx).key) ∧
      (twoAbsent 5).root codeHasher = .ok emptyState.root ∧
      ∃ prev post, (twoAbsent 5).computeRoots codeHasher twoValues = .ok (prev, post) ∧
        post ≠ (emptyState.setAll ((twoAbsent 5).allUpdates twoValues)).root := by
  refine ⟨codeHasher_ideal, by decide +kernel, by decide +kernel, by decide +kernel,
    by decide +kernel, (twoAbsentRoots 5).1, (twoAbsentRoots 5).2, by decide +kernel,
    by decide +kernel⟩

def halfValues (idx : Nat) : Nat := if idx = 0 then 3 else 8

def halfRoots : Nat × Nat :=
  match honestHalf.computeRoots codeHasher halfValues with
  | .ok roots => roots
  | .error _ => (0, 0)

theorem honestHalf_sidedAfter : honestHalf.SidedAfter codeHasher halfValues := by
  refine ⟨honestHalfShape, honestHalf_shape, fun _ => ⟨⟨?_, ?_, ?_⟩, ⟨?_, ?_, ?_⟩, ?_, trivial⟩⟩
  · decide +kernel
  · simp [ProofTree.siblings]
  · simp
  · simp [ProofTree.positions]
  · rintro n hn -
    exact ⟨1 <<< 255, 9, by decide, List.mem_singleton.mp hn, by decide⟩
  · rintro n h hk
    cases h
    revert hk
    decide +kernel
  · refine fun _ => ⟨⟨by decide +kernel, by simp [ProofTree.siblings], by simp⟩,
      ⟨by decide +kernel, by simp [ProofTree.siblings], by simp⟩, trivial, trivial⟩

/-- One key is overwritten and one created, beside an untouched sibling. -/
theorem honestHalf_updated :
    halfRoots.1 = twoSides.root ∧
      halfRoots.2 = (twoSides.setAll (honestHalf.allUpdates halfValues)).root := by
  have roots := Proof.computeRoots_post_iff codeHasher_ideal twoSides honestHalf (by decide +kernel)
    honestHalfMember (by decide +kernel)
    (fun idx hidx k hk => by
      have keys : ∀ idx < 2, honestHalf.keys[idx]? = some (honestHalfMember idx).key := by
        decide +kernel
      have values : ∀ idx < 2, (honestHalfMember idx).valueHash codeHasher =
          twoSides.get (honestHalfMember idx).key := by
        decide +kernel
      rw [values idx hidx, Option.some.inj ((keys idx hidx).symm.trans hk)])
    (by decide +kernel) halfValues halfRoots.1 halfRoots.2 (by decide +kernel)
  exact ⟨roots.1, roots.2.mpr honestHalf_sidedAfter⟩

end Vprogs.Smt
