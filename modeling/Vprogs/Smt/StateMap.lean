import Vprogs.Smt.Canonical

/-!
Finite maps from keys to live value hashes, and the effect of a list of writes
on their entries. A dead value removes its key.
-/
namespace Vprogs.Smt

/-- A finite map from keys to live value hashes, listed by ascending key. -/
structure StateMap {D : Type} (H : Hasher D) where
  entries : List (Key × D)
  sorted : entries.Pairwise fun a b => a.1 < b.1
  live : ∀ e ∈ entries, e.2 ≠ H.emptyHash

namespace StateMap

variable {D : Type} {H : Hasher D}

/-- The value of a key, `EMPTY_HASH` when it has none. -/
def get (S : StateMap H) (k : Key) : D :=
  match S.entries.find? (fun e => e.1 == k) with
  | some e => e.2
  | none => H.emptyHash

def root [DecidableEq D] (S : StateMap H) : D := (canon H DEPTH S.entries).hash

theorem segment (S : StateMap H) : Segment H DEPTH S.entries where
  bound := Nat.le_refl _
  live := S.live
  nodup := by
    rw [List.nodup_iff_pairwise_ne, List.pairwise_map]
    exact S.sorted.imp fun h => BitVec.ne_of_lt h
  agree _ _ _ _ i hi := absurd hi (by simp [DEPTH])

theorem get_of_mem (S : StateMap H) {k : Key} {v : D} (h : (k, v) ∈ S.entries) : S.get k = v := by
  have nodup := S.segment.nodup
  unfold get
  cases hf : S.entries.find? (fun e => e.1 == k) with
  | none => simpa using List.find?_eq_none.mp hf _ h
  | some e =>
    have hk : e.1 = k := by simpa using List.find?_some hf
    have := List.inj_on_of_nodup_map nodup (List.mem_of_find?_eq_some hf) h hk
    rw [this]

theorem get_of_not_mem (S : StateMap H) {k : Key} (h : ∀ e ∈ S.entries, e.1 ≠ k) :
    S.get k = H.emptyHash := by
  unfold get
  rw [List.find?_eq_none.mpr (by simpa using h)]

theorem mem_iff_get (S : StateMap H) {k : Key} {v : D} :
    (k, v) ∈ S.entries ↔ S.get k = v ∧ v ≠ H.emptyHash := by
  refine ⟨fun h => ⟨S.get_of_mem h, S.live _ h⟩, fun ⟨hget, live⟩ => ?_⟩
  unfold get at hget
  cases hf : S.entries.find? (fun e => e.1 == k) with
  | none => exact absurd (by simpa [hf] using hget.symm) live
  | some e =>
    rw [hf] at hget
    have hk : e.1 = k := by simpa using List.find?_some hf
    rw [← hk, ← hget]
    exact List.mem_of_find?_eq_some hf

end StateMap

section

variable {D : Type} [DecidableEq D]

/-- Entries after setting every key of `us` to its value, dead values removing it. -/
def applyUpdates (H : Hasher D) (us es : List (Key × D)) : List (Key × D) :=
  es.filter (fun e => decide (e.1 ∉ us.map Prod.fst)) ++
    us.filter (fun u => decide (u.2 ≠ H.emptyHash))

section Updates

variable {H : Hasher D} {us es : List (Key × D)} {rem : Nat}

@[simp] theorem mem_applyUpdates {e : Key × D} :
    e ∈ applyUpdates H us es ↔
      (e ∈ es ∧ e.1 ∉ us.map Prod.fst) ∨ (e ∈ us ∧ e.2 ≠ H.emptyHash) := by
  rw [applyUpdates, List.mem_append, List.mem_filter, List.mem_filter]
  simp only [decide_eq_true_eq]

@[simp] theorem applyUpdates_nil : applyUpdates H [] es = es := by
  simp [applyUpdates]

theorem live_applyUpdates (live : ∀ e ∈ es, e.2 ≠ H.emptyHash) :
    ∀ e ∈ applyUpdates H us es, e.2 ≠ H.emptyHash := by
  intro e he
  rcases mem_applyUpdates.mp he with ⟨he, _⟩ | ⟨_, he⟩
  · exact live e he
  · exact he

theorem nodup_applyUpdates (hus : (us.map Prod.fst).Nodup) (hes : (es.map Prod.fst).Nodup) :
    ((applyUpdates H us es).map Prod.fst).Nodup := by
  rw [applyUpdates, List.map_append, List.nodup_append]
  refine ⟨hes.sublist (List.filter_sublist.map _), hus.sublist (List.filter_sublist.map _), ?_⟩
  intro k hk k' hk' same
  subst same
  obtain ⟨e, he, rfl⟩ := List.mem_map.mp hk
  obtain ⟨u, hu, hkey⟩ := List.mem_map.mp hk'
  have fresh : e.1 ∉ us.map Prod.fst := by simpa using (List.mem_filter.mp he).2
  exact fresh (List.mem_map.mpr ⟨u, (List.mem_filter.mp hu).1, hkey⟩)

/-- Updates act on each side of the tree separately. -/
theorem side_applyUpdates (b : Bool) :
    side rem b (applyUpdates H us es) = applyUpdates H (side rem b us) (side rem b es) := by
  rw [applyUpdates, applyUpdates, side, List.filter_append, side, side, List.filter_filter,
    List.filter_filter, List.filter_filter, List.filter_filter]
  congr 1
  · refine List.filter_congr fun e _ => ?_
    by_cases hb : e.1.getMsb (255 - rem) = b
    · have : e.1 ∈ us.map Prod.fst ↔
          e.1 ∈ (us.filter fun u => u.1.getMsb (255 - rem) == b).map Prod.fst := by
        simp only [List.mem_map, List.mem_filter, beq_iff_eq]
        exact exists_congr fun u => ⟨fun h => ⟨⟨h.1, h.2 ▸ hb⟩, h.2⟩, fun h => ⟨h.1.1, h.2⟩⟩
      simp only [hb, this, beq_self_eq_true, Bool.true_and, Bool.and_true]
    · simp [hb]
  · refine List.filter_congr fun u _ => Bool.and_comm _ _

end Updates

end

namespace StateMap

variable {D : Type} [DecidableEq D] {H : Hasher D}

/-- Writes one key; `EMPTY_HASH` removes it. -/
def set (S : StateMap H) (k : Key) (v : D) : StateMap H where
  entries := sortByKey (applyUpdates H [(k, v)] S.entries)
  sorted := by
    refine pairwise_lt_of_le (pairwise_sortByKey _) ?_
    rw [((sortByKey_perm _).map Prod.fst).nodup_iff]
    exact nodup_applyUpdates (by simp) S.segment.nodup
  live e he := live_applyUpdates S.live e ((sortByKey_perm _).mem_iff.mp he)

/-- Writes a list of keys in order. -/
def setAll (S : StateMap H) (us : List (Key × D)) : StateMap H :=
  us.foldl (fun S u => S.set u.1 u.2) S

theorem mem_set (S : StateMap H) {k : Key} {v : D} {e : Key × D} :
    e ∈ (S.set k v).entries ↔
      (e ∈ S.entries ∧ e.1 ≠ k) ∨ (e = (k, v) ∧ v ≠ H.emptyHash) := by
  rw [set, (sortByKey_perm _).mem_iff, mem_applyUpdates]
  simp only [List.map_cons, List.map_nil, List.mem_singleton]
  exact or_congr_right (and_congr_right fun h => by rw [h])

theorem get_set (S : StateMap H) (k : Key) (v : D) (k' : Key) :
    (S.set k v).get k' = if k' = k then v else S.get k' := by
  split
  · rename_i same
    subst same
    by_cases dead : v = H.emptyHash
    · rw [dead, get_of_not_mem]
      intro e he
      rcases S.mem_set.mp he with ⟨_, hne⟩ | ⟨_, live⟩
      · exact hne
      · exact absurd rfl live
    · exact get_of_mem _ (S.mem_set.mpr (.inr ⟨rfl, dead⟩))
  · rename_i other
    by_cases mem : ∃ e ∈ S.entries, e.1 = k'
    · obtain ⟨⟨_, w⟩, he, rfl⟩ := mem
      rw [S.get_of_mem he]
      exact get_of_mem _ (S.mem_set.mpr (.inl ⟨he, other⟩))
    · have none : ∀ e ∈ S.entries, e.1 ≠ k' := fun e he hk => mem ⟨e, he, hk⟩
      rw [S.get_of_not_mem none, get_of_not_mem]
      intro e he
      rcases S.mem_set.mp he with ⟨he, _⟩ | ⟨rfl, _⟩
      · exact none e he
      · exact fun hk => other hk.symm

/-- The last write to a key decides its value. -/
theorem get_setAll (S : StateMap H) (us : List (Key × D)) (k : Key) :
    (S.setAll us).get k =
      match (us.filter fun u => u.1 == k).getLast? with
      | some u => u.2
      | none => S.get k := by
  induction us generalizing S with
  | nil => rfl
  | cons u us ih =>
    rw [setAll, List.foldl_cons, ← setAll, ih, get_set]
    by_cases hk : u.1 = k
    · rw [List.filter_cons_of_pos (by simpa using hk), if_pos hk.symm]
      cases us.filter fun u => u.1 == k with
      | nil => rfl
      | cons v vs => rw [List.getLast?_cons_cons]; cases h : (v :: vs).getLast? <;> simp_all
    · rw [List.filter_cons_of_neg (by simpa using hk), if_neg (Ne.symm hk)]

/-- Distinct keys may be written in any order. -/
theorem mem_setAll (S : StateMap H) {us : List (Key × D)} (distinct : (us.map Prod.fst).Nodup)
    {e : Key × D} : e ∈ (S.setAll us).entries ↔ e ∈ applyUpdates H us S.entries := by
  induction us generalizing S with
  | nil => simp [setAll]
  | cons u us ih =>
    rw [List.map_cons, List.nodup_cons] at distinct
    rw [setAll, List.foldl_cons, ← setAll, ih _ distinct.2, mem_applyUpdates, mem_applyUpdates,
      mem_set, List.map_cons, List.mem_cons, List.mem_cons]
    constructor
    · rintro (⟨⟨he, hne⟩ | ⟨rfl, live⟩, fresh⟩ | ⟨hu, live⟩)
      · exact .inl ⟨he, fun h => h.elim hne fresh⟩
      · exact .inr ⟨.inl rfl, live⟩
      · exact .inr ⟨.inr hu, live⟩
    · rintro (⟨he, fresh⟩ | ⟨rfl | hu, live⟩)
      · exact .inl ⟨.inl ⟨he, fun h => fresh (.inl h)⟩, fun h => fresh (.inr h)⟩
      · exact .inl ⟨.inr ⟨rfl, live⟩, distinct.1⟩
      · exact .inr ⟨hu, live⟩

end StateMap
end Vprogs.Smt
