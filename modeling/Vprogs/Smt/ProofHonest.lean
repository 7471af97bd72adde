import Vprogs.Smt.ProofTables

/-!
The proof the builder assembles: its tables write out the plan of the stored
entries along the input keys, and the membership of every input key points at
the row that answers it.
-/
namespace Vprogs.Smt

theorem isSortedBy_of_pairwise {α : Type} {lt : α → α → Bool} {xs : List α}
    (h : xs.Pairwise fun a b => lt a b = true) : isSortedBy lt xs = true := by
  induction xs with
  | nil => rfl
  | cons a xs ih =>
    have ⟨first, rest⟩ := List.pairwise_cons.mp h
    cases xs with
    | nil => rfl
    | cons b xs => rw [isSortedBy, first b (by simp), ih rest, Bool.and_self]

theorem sortUnique_eq {keys : List Key} (nodup : keys.Nodup) :
    ∃ order, sortUnique keys = .ok (order.map (keys.getD · 0), order) ∧
      order.Perm (List.range keys.length) ∧ (order.map (keys.getD · 0)).Perm keys ∧
      (order.map (keys.getD · 0)).Pairwise (· < ·) := by
  have hmap : (List.range keys.length).map (keys.getD · 0) = keys := by
    refine List.ext_getElem? fun i => ?_
    by_cases hi : i < keys.length <;> simp [hi]
  have hperm := List.perm_insertionSort (fun a b => keys.getD a 0 ≤ keys.getD b 0)
    (List.range keys.length)
  have hle := List.pairwise_insertionSort (fun a b => keys.getD a 0 ≤ keys.getD b 0)
    (List.range keys.length)
  unfold sortUnique
  generalize (List.range keys.length).insertionSort
    (fun a b => keys.getD a 0 ≤ keys.getD b 0) = order at hperm hle
  have hkeys : (order.map (keys.getD · 0)).Perm keys := by
    have := hperm.map (keys.getD · 0)
    rwa [hmap] at this
  have hlt : (order.map (keys.getD · 0)).Pairwise (· < ·) := by
    have hne := List.nodup_iff_pairwise_ne.mp (hkeys.nodup_iff.mpr nodup)
    refine ((List.pairwise_map.mpr hle).and hne).imp fun h => BitVec.lt_of_le_ne h.1 h.2
  refine ⟨order, ?_, hperm, hkeys, hlt⟩
  dsimp only
  rw [if_pos (isSortedBy_of_pairwise (hlt.imp fun h => decide_eq_true (BitVec.ne_of_lt h)))]
  rfl

/-- How a row answers a key. -/
def Row.membership {D : Type} (row : Row D) (k : Key) (pos : Nat) : Membership :=
  if row.key = k then .present pos else .absent pos

/-- Related lists have related elements at every position. -/
theorem exists_of_forall₂ {α β : Type} {R : α → β → Prop} {xs : List α} {ys : List β}
    (h : List.Forall₂ R xs ys) {i : Nat} {y : β} (hy : ys[i]? = some y) : ∃ x, xs[i]? = some x ∧ R x y := by
  induction h generalizing i with
  | nil => simp at hy
  | cons hr _ ih =>
    cases i with
    | zero =>
      rw [List.getElem?_cons_zero, Option.some.injEq] at hy
      exact ⟨_, rfl, hy ▸ hr⟩
    | succ i => exact ih hy

namespace ProofBuilder

variable {D : Type}

/-- Every input of the rows has a slot with the position of its row. -/
theorem slotsOf_getElem? {rows : List (Row D)} {j : Nat} {k : Key} (start : Nat)
    (hj : (Plan.inputs rows)[j]? = some k) :
    ∃ pos row, (slotsOf start rows)[j]? = some (start + pos) ∧ rows[pos]? = some row ∧
      k ∈ row.inputs := by
  induction rows generalizing start j with
  | nil => simp [Plan.inputs] at hj
  | cons row rows ih =>
    have hin : Plan.inputs (row :: rows) = row.inputs ++ Plan.inputs rows := by
      simp [Plan.inputs]
    rw [hin, List.getElem?_append] at hj
    rw [slotsOf, List.getElem?_append, List.length_replicate]
    split at hj
    · next hlt =>
      refine ⟨0, row, ?_, rfl, List.mem_of_getElem? hj⟩
      rw [if_pos hlt, List.getElem?_replicate, if_pos hlt, Nat.add_zero]
    · next hge =>
      obtain ⟨pos, row', hslot, hrow, hk⟩ := ih (start + 1) hj
      refine ⟨pos + 1, row', ?_, hrow, hk⟩
      rw [if_neg hge, hslot]
      exact congrArg some (by omega)

/-- Setting distinct positions leaves each with what was set there. -/
theorem classifyMemberships_fold {b : ProofBuilder D} {answer : Nat × Nat → Membership}
    (slots : List (Nat × Nat)) (distinct : (slots.map Prod.fst).Nodup)
    (step : ∀ slot ∈ slots, ∀ ms, b.classifyMembership ms slot = .ok (ms.set slot.1 (answer slot)))
    (ms : List Membership) :
    ∃ ms', slots.foldlM b.classifyMembership ms = .ok ms' ∧ ms'.length = ms.length ∧
      (∀ slot ∈ slots, slot.1 < ms.length → ms'[slot.1]? = some (answer slot)) ∧
      ∀ i, i ∉ slots.map Prod.fst → ms'[i]? = ms[i]? := by
  induction slots generalizing ms with
  | nil => exact ⟨ms, rfl, rfl, by simp, fun _ _ => rfl⟩
  | cons slot slots ih =>
    rw [List.map_cons, List.nodup_cons] at distinct
    have ⟨ms', hfold, hlen, hset, hkeep⟩ :=
      ih distinct.2 (fun s hs => step s (List.mem_cons_of_mem _ hs)) (ms.set slot.1 (answer slot))
    rw [List.length_set] at hlen hset
    refine ⟨ms', ?_, hlen, fun s hs hlt => ?_, fun i hi => ?_⟩
    · rw [List.foldlM_cons, step slot (by simp)]
      exact hfold
    · match List.mem_cons.mp hs with
      | .inl heq =>
        subst heq
        rw [hkeep _ distinct.1, List.getElem?_set_self hlt]
      | .inr hs => exact hset s hs hlt
    · rw [List.map_cons, List.mem_cons, not_or] at hi
      rw [hkeep i hi.2, List.getElem?_set_ne (Ne.symm hi.1)]

/-- Every input key is classified by the row that answers it. -/
theorem Built.classify {keys : List Key} {b : ProofBuilder D} {rows : List (Row D)}
    {sibs : List (HashedNode D)} {bits : List Bool} (h : Built keys b rows sibs bits)
    {order : List Nat} (horder : order.Perm (List.range keys.length))
    (hinputs : Plan.inputs rows = order.map (keys.getD · 0)) :
    ∃ ms, b.classifyMemberships order = .ok ms ∧ ms.length = keys.length ∧
      ∀ (i : Nat) k, keys[i]? = some k → ∃ (pos : Nat) (row : Row D), rows[pos]? = some row ∧
        k ∈ row.inputs ∧ ms[i]? = some (row.membership k pos) := by
  have hlen : order.length = keys.length := by simpa using horder.length_eq
  have hslots : b.sortedToLeaf = slotsOf 0 rows := by
    rw [h.slots, hinputs, List.length_map, hlen, Nat.sub_self, List.replicate_zero, List.append_nil]
  -- the slot of a sorted position holds the row that answers its key
  have slot : ∀ i j : Nat, order[j]? = some i → ∃ (pos : Nat) (row : Row D), rows[pos]? = some row ∧
      keys.getD i 0 ∈ row.inputs ∧ b.sortedToLeaf[j]? = some pos ∧
      ∃ leaf, b.leaves[pos]? = some leaf ∧ LeafOf b.keys leaf row := by
    intro i j hij
    have ⟨pos, row, hpos, hrow, hk⟩ := slotsOf_getElem? 0
      (show (Plan.inputs rows)[j]? = some (keys.getD i 0) by rw [hinputs, List.getElem?_map, hij]; rfl)
    rw [← hslots, Nat.zero_add] at hpos
    exact ⟨pos, row, hrow, hk, hpos, exists_of_forall₂ h.leaves hrow⟩
  have hkeys : ∀ (i : Nat) k, keys[i]? = some k → b.keys[i]? = some k := by
    intro i k hik
    have ⟨more, hmore⟩ := h.inputFirst
    rw [← hmore, List.getElem?_append_left (List.getElem?_eq_some_iff.mp hik).1, hik]
  let answer (slot : Nat × Nat) : Membership :=
    let pos := b.sortedToLeaf.getD slot.2 0
    if (b.leaves[pos]?.map Leaf.keyIdx) = some slot.1 then .present pos else .absent pos
  have step : ∀ slot ∈ order.zipIdx, ∀ ms : List Membership,
      b.classifyMembership ms slot = .ok (ms.set slot.1 (answer slot)) := by
    intro ⟨i, j⟩ hmem ms
    have ⟨pos, row, _, _, hpos, leaf, hleaf, _⟩ := slot i j (List.mk_mem_zipIdx_iff_getElem?.mp hmem)
    simp only [classifyMembership, answer, List.getD_eq_getElem?_getD, hpos, Option.getD_some, hleaf,
      Option.map_some, Option.some.injEq]
    exact ok_bind_iff.mpr ⟨pos, rfl, ok_bind_iff.mpr ⟨leaf, by rw [hleaf]; rfl, rfl⟩⟩
  have distinct : (order.zipIdx.map Prod.fst).Nodup := by
    rw [List.zipIdx_map_fst]
    exact horder.nodup_iff.mpr List.nodup_range
  have ⟨ms, hfold, hmsLen, hset, _⟩ :=
    classifyMemberships_fold order.zipIdx distinct step (List.replicate order.length (.absent 0))
  rw [List.length_replicate] at hmsLen hset
  refine ⟨ms, hfold, by rw [hmsLen, hlen], fun i k hik => ?_⟩
  have hi : i < keys.length := (List.getElem?_eq_some_iff.mp hik).1
  have ⟨j, hj⟩ := List.mem_iff_getElem?.mp (horder.mem_iff.mpr (List.mem_range.mpr hi))
  have ⟨pos, row, hrow, hk, hpos, leaf, hleaf, hof⟩ := slot i j hj
  have hget : keys.getD i 0 = k := by rw [List.getD_eq_getElem?_getD, hik]; rfl
  rw [hget] at hk
  refine ⟨pos, row, hrow, hk, ?_⟩
  rw [hset (i, j) (List.mk_mem_zipIdx_iff_getElem?.mpr hj) (by rw [hlen]; exact hi)]
  -- interned keys are distinct, so the leaf owns the key exactly at the key's own index
  have own : leaf.keyIdx = i ↔ row.key = k := by
    constructor
    · intro heq
      have := hof.2.2
      rw [heq, hkeys i k hik] at this
      exact (Option.some.inj this).symm
    · intro heq
      have hlt := (List.getElem?_eq_some_iff.mp hof.2.2).1
      exact (List.getElem?_inj hlt h.nodup).mp (by rw [hof.2.2, heq, hkeys i k hik])
  simp only [answer, hpos, hleaf, List.getD_eq_getElem?_getD, Option.getD_some, Option.map_some,
    Option.some.injEq, own, Row.membership]

end ProofBuilder

/-- The tables of `p` write `pl` out for the input keys. -/
structure Proof.Honest {D : Type} (p : Proof D) (keys : List Key) (pl : Plan D) : Prop where
  inputFirst : keys <+: p.keys
  nodup : p.keys.Nodup
  length_keys : p.keys.length ≤ keys.length + p.leaves.length
  leaves : List.Forall₂ (ProofBuilder.LeafOf p.keys) p.leaves pl.rows
  siblings : p.siblings = pl.siblings
  length_topology : p.topology.length = (pl.bits.length + 7) / 8
  topology : ∀ i, getLsb p.topology i = pl.bits.getD i false
  length_memberships : p.memberships.length = keys.length
  membership : ∀ (i : Nat) k, keys[i]? = some k → ∃ (pos : Nat) (row : Row D),
    pl.rows[pos]? = some row ∧ k ∈ row.inputs ∧
      p.memberships[i]? = some (row.membership k pos)

section

variable {D : Type} [DecidableEq D] {H : Hasher D}

omit [DecidableEq D] in
/-- The root is asked any sorted keys. -/
theorem asked_root (S : StateMap H) {ks : List Key} (nonempty : ks ≠ [])
    (sorted : ks.Pairwise (· < ·)) : Asked H DEPTH ks S.entries :=
  ⟨nonempty, sorted, S.segment, fun _ _ _ _ _ hi => absurd hi (by simp [DEPTH])⟩

/-- The builder's proof for distinct keys, at least one, writes out the plan of
the stored map. -/
theorem prove_honest {node : Reads D} {S : StateMap H} {keys : List Key}
    (stored : Stores H node DEPTH NodeKey.ROOT S.entries) (nonempty : keys ≠ []) (nodup : keys.Nodup) :
    ∃ ks p, ks.Perm keys ∧ Asked H DEPTH ks S.entries ∧ Tree.prove H node keys = .ok p ∧
      p.Honest keys (plan H DEPTH ks S.entries) := by
  obtain ⟨order, hsort, horder, hperm, hlt⟩ := sortUnique_eq nodup
  generalize hks : order.map (keys.getD · 0) = ks at hsort hperm hlt
  have hne : ks ≠ [] := fun h => nonempty (List.nil_perm.mp (h ▸ hperm))
  have asked := asked_root S hne hlt
  have hinputs := inputs_plan asked
  have hlen : ks.length = keys.length := hperm.length_eq
  have collects : ProofBuilder.Collects keys (plan H DEPTH ks S.entries) ks _ :=
    ProofBuilder.collect_collects rfl stored asked
  obtain ⟨b, hcollect, built⟩ := collects (.new keys) [] [] [] (ProofBuilder.built_new nodup)
    (by simp [Plan.inputs, hlen])
  rw [List.nil_append, List.nil_append, List.nil_append] at built
  obtain ⟨ms, hms, hmsLen, hmember⟩ := built.classify horder (by rw [hks]; exact hinputs)
  refine ⟨ks, ⟨b.keys, b.leaves, b.siblings, b.topology.bytes, ms⟩, hperm, asked, ?_,
    built.inputFirst, built.nodup, built.count, built.leaves, built.siblings, built.topology.size,
    built.topology.bit, hmsLen, hmember⟩
  unfold Tree.prove ProofBuilder.build
  rw [hsort]
  change (do
    let b ← ProofBuilder.collect H node DEPTH NodeKey.ROOT ks 0 (.new keys)
    let memberships ← b.classifyMemberships order
    pure (⟨b.keys, b.leaves, b.siblings, b.topology.bytes, memberships⟩ : Proof D)) = _
  rw [ok_bind_iff]
  exact ⟨b, hcollect, ok_bind_iff.mpr ⟨ms, hms, rfl⟩⟩

end

end Vprogs.Smt
