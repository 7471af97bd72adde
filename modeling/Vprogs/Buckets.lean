import Mathlib.Algebra.BigOperators.Intervals

/-!
Counting sort of indices by bucket, in compressed-row form: `indices` lists
the members of bucket `0`, then of bucket `1` and so on, and `offsets` bounds
each run. Elements that name no bucket are left out.
-/
namespace Vprogs

structure Buckets where
  offsets : List Nat
  indices : List Nat

/-- The members of one bucket. -/
def Buckets.at (b : Buckets) (k : Nat) : List Nat :=
  let start := (b.offsets[k]?).getD 0
  let fin := (b.offsets[k + 1]?).getD 0
  (b.indices.drop start).take (fin - start)

namespace Buckets

/-- How many elements fall into each bucket, shifted one place up. -/
def counts (n : Nat) (ps : List Nat) : List Nat :=
  ps.foldl (fun offsets p => if p < n then offsets.modify (p + 1) (· + 1) else offsets)
    (List.replicate (n + 1) 0)

def runningSums : Nat → List Nat → List Nat
  | _, [] => []
  | acc, c :: cs => (acc + c) :: runningSums (acc + c) cs

/-- Where each bucket's run starts. -/
def starts (n : Nat) (ps : List Nat) : List Nat := runningSums 0 (counts n ps)

/-- One write of the second pass; `offsets` serves as the write cursors. -/
def place (n : Nat) (acc : List Nat × List Nat) (x : Nat × Nat) : List Nat × List Nat :=
  if x.1 < n then
    (acc.1.set ((acc.2[x.1]?).getD 0) x.2, acc.2.modify x.1 (· + 1))
  else acc

def ofPositions (n : Nat) (ps : List Nat) : Buckets :=
  let filled := ps.zipIdx.foldl (place n)
    (List.replicate (((starts n ps)[n]?).getD 0) 0, starts n ps)
  -- every cursor now stands at the start of the next run
  { offsets := 0 :: filled.2.take n, indices := filled.1 }

/-- Start of the run of bucket `k`. -/
def start (ps : List Nat) (k : Nat) : Nat := ∑ j ∈ Finset.range k, ps.count j

theorem start_succ (ps : List Nat) (k : Nat) : start ps (k + 1) = start ps k + ps.count k :=
  Finset.sum_range_succ _ _

theorem start_mono (ps : List Nat) : Monotone (start ps) :=
  monotone_nat_of_le_succ fun k => by rw [start_succ]; omega

theorem counts_getElem? (n : Nat) (ps : List Nat) :
    (counts n ps).length = n + 1 ∧ (counts n ps)[0]? = some 0 ∧
      ∀ j < n, (counts n ps)[j + 1]? = some (ps.count j) := by
  induction ps using List.reverseRecOn with
  | nil => simp [counts, List.getElem?_replicate]
  | append_singleton ps p ih =>
    obtain ⟨hlen, hzero, hsucc⟩ := ih
    have step : counts n (ps ++ [p]) =
        if p < n then (counts n ps).modify (p + 1) (· + 1) else counts n ps := by
      simp [counts, List.foldl_append]
    rw [step]
    by_cases hp : p < n
    · simp only [hp, if_true, List.length_modify, List.getElem?_modify, hlen, hzero]
      refine ⟨trivial, by simp, fun j hj => ?_⟩
      rw [hsucc j hj, List.count_append, List.count_singleton]
      by_cases h : p = j <;> simp [h]
    · simp only [hp, if_false]
      refine ⟨hlen, hzero, fun j hj => ?_⟩
      rw [hsucc j hj, List.count_append, List.count_singleton]
      simp [show p ≠ j by omega]

theorem runningSums_getElem? (acc : Nat) (cs : List Nat) {k : Nat} (hk : k < cs.length) :
    (runningSums acc cs)[k]? = some (acc + (cs.take (k + 1)).sum) := by
  induction cs generalizing acc k with
  | nil => simp at hk
  | cons c cs ih =>
    cases k with
    | zero => simp [runningSums]
    | succ k =>
      rw [runningSums, List.getElem?_cons_succ, ih (acc + c) (by simpa using hk)]
      simp [Nat.add_assoc]

theorem counts_take_sum (n : Nat) (ps : List Nat) {k : Nat} (hk : k ≤ n) :
    ((counts n ps).take (k + 1)).sum = start ps k := by
  obtain ⟨_, hzero, hsucc⟩ := counts_getElem? n ps
  induction k with
  | zero => simp [List.take_one, List.head?_eq_getElem?, hzero, start]
  | succ k ih =>
    rw [List.take_add_one, List.sum_append, ih (by omega), hsucc k (by omega), start_succ]
    simp

theorem starts_getElem? (n : Nat) (ps : List Nat) {k : Nat} (hk : k ≤ n) :
    (starts n ps)[k]? = some (start ps k) := by
  rw [starts, runningSums_getElem? 0 _ (by rw [(counts_getElem? n ps).1]; omega),
    counts_take_sum n ps hk, Nat.zero_add]

theorem length_runningSums (acc : Nat) (cs : List Nat) : (runningSums acc cs).length = cs.length := by
  induction cs generalizing acc with
  | nil => rfl
  | cons c cs ih => rw [runningSums, List.length_cons, ih, List.length_cons]

theorem length_starts (n : Nat) (ps : List Nat) : (starts n ps).length = n + 1 := by
  rw [starts, length_runningSums, (counts_getElem? n ps).1]

/-- The indices of the elements of `ps` that name bucket `k`, in order. -/
def indicesOf (ps : List Nat) (k : Nat) : List Nat :=
  (List.range ps.length).filter fun i => ps[i]? == some k

theorem indicesOf_append_singleton (ps : List Nat) (p k : Nat) :
    indicesOf (ps ++ [p]) k = indicesOf ps k ++ if p = k then [ps.length] else [] := by
  rw [indicesOf, List.length_append, List.length_singleton, List.range_succ, List.filter_append]
  congr 1
  · refine List.filter_congr fun i hi => ?_
    rw [List.getElem?_append_left (List.mem_range.mp hi)]
  · by_cases h : p = k <;> simp [h]

theorem length_indicesOf (ps : List Nat) (k : Nat) : (indicesOf ps k).length = ps.count k := by
  induction ps using List.reverseRecOn with
  | nil => rfl
  | append_singleton ps p ih =>
    rw [indicesOf_append_singleton, List.length_append, ih, List.count_append,
      List.count_singleton]
    by_cases h : p = k <;> simp [h]

/-- State of the second pass after the elements `xs` of `ps`. -/
structure Filled (n : Nat) (ps xs : List Nat) (acc : List Nat × List Nat) : Prop where
  room : acc.1.length = start ps n
  cursor : ∀ k < n, acc.2[k]? = some (start ps k + xs.count k)
  run : ∀ k < n, ∀ i < xs.count k, acc.1[start ps k + i]? = (indicesOf xs k)[i]?

theorem Filled.place {n : Nat} {ps xs : List Nat} {acc : List Nat × List Nat} {p : Nat}
    (h : Filled n ps xs acc) (hle : (xs ++ [p]).Sublist ps) :
    Filled n ps (xs ++ [p]) (place n acc (p, xs.length)) := by
  unfold Buckets.place
  by_cases hp : p < n
  · have more : xs.count p + 1 ≤ ps.count p := by
      have := hle.count_le p
      simpa using this
    have hend : start ps p + ps.count p ≤ start ps n := by
      rw [← start_succ]
      exact start_mono ps hp
    simp only [hp, if_true, h.cursor p hp, Option.getD_some]
    refine ⟨by simp [h.room], fun k hk => ?_, fun k hk i hi => ?_⟩
    · rw [List.getElem?_modify, h.cursor k hk, List.count_append, List.count_singleton]
      by_cases e : p = k <;> simp [e, Nat.add_assoc]
    · rw [List.getElem?_set, indicesOf_append_singleton, h.room]
      rw [List.count_append, List.count_singleton] at hi
      by_cases e : p = k
      · subst e
        simp only [beq_self_eq_true, if_true] at hi ⊢
        by_cases last : i = xs.count p
        · subst last
          rw [if_pos rfl, if_pos (by omega), List.getElem?_append_right (by
            rw [length_indicesOf])]
          simp [length_indicesOf]
        · rw [if_neg (by omega), h.run p hk i (by omega),
            List.getElem?_append_left (by rw [length_indicesOf]; omega)]
      · simp only [beq_iff_eq, e, if_false, Nat.add_zero] at hi
        -- the write lands in the run of `p`, which does not meet the run of `k`
        have apart : start ps p + xs.count p ≠ start ps k + i := by
          have hk' := (List.sublist_append_left xs [p]).trans hle |>.count_le k
          rcases Nat.lt_or_gt_of_ne e with lt | gt
          · have := start_mono ps (show p + 1 ≤ k from lt)
            rw [start_succ] at this
            omega
          · have := start_mono ps (show k + 1 ≤ p from gt)
            rw [start_succ] at this
            omega
        rw [if_neg apart, h.run k hk i hi]
        simp [e]
  · simp only [hp, if_false]
    refine ⟨h.room, fun k hk => ?_, fun k hk i hi => ?_⟩
    · rw [h.cursor k hk, List.count_append, List.count_singleton]
      simp [show p ≠ k by omega]
    · rw [List.count_append, List.count_singleton] at hi
      simp only [beq_iff_eq, show p ≠ k by omega, if_false, Nat.add_zero] at hi
      rw [h.run k hk i hi, indicesOf_append_singleton]
      simp [show p ≠ k by omega]

/-- The second pass over the first elements of `ps`. -/
def filling (n : Nat) (ps xs : List Nat) : List Nat × List Nat :=
  xs.zipIdx.foldl (place n) (List.replicate (((starts n ps)[n]?).getD 0) 0, starts n ps)

theorem filling_concat (n : Nat) (ps xs : List Nat) (p : Nat) :
    filling n ps (xs ++ [p]) = place n (filling n ps xs) (p, xs.length) := by
  simp [filling, List.zipIdx_append]

theorem filled_upTo {n : Nat} {ps xs : List Nat} (h : xs <+: ps) : Filled n ps xs (filling n ps xs) := by
  induction xs using List.reverseRecOn with
  | nil =>
    refine ⟨by simp [filling, starts_getElem? n ps (le_refl n)], fun k hk => ?_, by simp⟩
    simpa [filling] using starts_getElem? n ps (Nat.le_of_lt hk)
  | append_singleton xs p ih =>
    rw [filling_concat]
    exact (ih ((List.prefix_append xs [p]).trans h)).place h.sublist

theorem filled (n : Nat) (ps : List Nat) : Filled n ps ps (filling n ps ps) :=
  filled_upTo List.prefix_rfl

theorem offset_eq_start {n : Nat} (ps : List Nat) {k : Nat} (hk : k ≤ n) :
    (ofPositions n ps).offsets[k]? = some (start ps k) := by
  cases k with
  | zero => rfl
  | succ k =>
    change (0 :: (filling n ps ps).2.take n)[k + 1]? = _
    rw [List.getElem?_cons_succ, List.getElem?_take_of_lt (by omega),
      (filled n ps).cursor k (by omega), start_succ]

theorem length_indices (n : Nat) (ps : List Nat) :
    (ofPositions n ps).indices.length = start ps n := (filled n ps).room

/-- Each bucket holds the indices of exactly its own elements. -/
theorem ofPositions_at (n : Nat) (ps : List Nat) {k : Nat} (hk : k < n) :
    (ofPositions n ps).at k = indicesOf ps k := by
  simp only [Buckets.at, offset_eq_start ps (Nat.le_of_lt hk), offset_eq_start ps hk,
    Option.getD_some, start_succ, Nat.add_sub_cancel_left]
  refine List.ext_getElem? fun i => ?_
  by_cases hi : i < ps.count k
  · rw [List.getElem?_take_of_lt hi, List.getElem?_drop]
    exact (filled n ps).run k hk i hi
  · rw [List.getElem?_take_eq_none (by omega), List.getElem?_eq_none (by
      rw [length_indicesOf]; omega)]

/-- The runs, one after the other, are all there is. -/
theorem flatMap_at (n : Nat) (ps : List Nat) :
    (List.range n).flatMap (ofPositions n ps).at = (ofPositions n ps).indices := by
  have upTo : ∀ m ≤ n, (List.range m).flatMap (ofPositions n ps).at =
      (ofPositions n ps).indices.take (start ps m) := by
    intro m hm
    induction m with
    | zero => simp [start]
    | succ m ih =>
      rw [List.range_succ, List.flatMap_append, ih (by omega), List.flatMap_singleton]
      simp only [Buckets.at, offset_eq_start ps (Nat.le_of_succ_le hm), offset_eq_start ps hm,
        Option.getD_some, start_succ, Nat.add_sub_cancel_left]
      rw [List.take_add]
  rw [upTo n (le_refl n), ← length_indices, List.take_length]

theorem start_le_length (ps : List Nat) (n : Nat) : start ps n ≤ ps.length := by
  induction ps using List.reverseRecOn with
  | nil => simp [start]
  | append_singleton ps p ih =>
    have hone : ∑ j ∈ Finset.range n, List.count j [p] ≤ 1 := by
      simp only [List.count_singleton]
      calc ∑ j ∈ Finset.range n, (if p == j then 1 else 0)
          = ∑ j ∈ Finset.range n, (if p = j then 1 else 0) := by simp
        _ ≤ 1 := by rw [Finset.sum_ite_eq]; split <;> omega
    simp only [start, List.count_append, Finset.sum_add_distrib, List.length_append,
      List.length_singleton] at ih ⊢
    omega

/-- No offset exceeds the number of elements. -/
theorem offset_le_length {n o : Nat} {ps : List Nat} (h : o ∈ (ofPositions n ps).offsets) :
    o ≤ ps.length := by
  have ⟨k, hk, hget⟩ := List.getElem_of_mem h
  have hlen : (ofPositions n ps).offsets.length ≤ n + 1 := by
    simp [ofPositions]
  have hoffset := offset_eq_start (n := n) ps (k := k) (by omega)
  rw [List.getElem?_eq_getElem hk, hget, Option.some.injEq] at hoffset
  exact hoffset ▸ start_le_length ps k

end Buckets
end Vprogs
