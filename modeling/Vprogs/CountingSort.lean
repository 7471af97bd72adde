import Vprogs.Buckets

/-!
The counting sort as it runs on arrays: every access is checked against the bounds and
every counter against its limit. With fewer elements than the limit no check fails and
the arrays end up as `Buckets.ofPositions` has them.
-/
namespace Vprogs.CountingSort

section

variable (limit : Nat)

/-- `xs[i] += amount` on counters below the limit. -/
def bump (xs : List Nat) (i amount : Nat) : Option (List Nat) := do
  let x ← xs[i]?
  if x + amount < limit then some (xs.set i (x + amount)) else none

/-- `xs[i] = x`. -/
def store (xs : List Nat) (i x : Nat) : Option (List Nat) :=
  if i < xs.length then some (xs.set i x) else none

/-- First pass: the elements of each bucket, counted one place up. -/
def count (n : Nat) (ps : List Nat) : Option (List Nat) :=
  ps.foldlM (fun offsets p => if p < n then bump limit offsets (p + 1) 1 else some offsets)
    (List.replicate (n + 1) 0)

def accumulate (n : Nat) (offsets : List Nat) : Option (List Nat) :=
  (List.range n).foldlM (fun offsets i => do
    let before ← offsets[i]?
    bump limit offsets (i + 1) before) offsets

/-- One write of the second pass, at the cursor of the element's bucket. -/
def write (n : Nat) (acc : List Nat × List Nat) (x : Nat × Nat) : Option (List Nat × List Nat) :=
  if x.1 < n then do
    let cursor ← acc.2[x.1]?
    let indices ← store acc.1 cursor (x.2 % limit)
    let offsets ← bump limit acc.2 x.1 1
    some (indices, offsets)
  else some acc

def fill (n : Nat) (ps offsets : List Nat) : Option (List Nat × List Nat) := do
  let total ← offsets[n]?
  ps.zipIdx.foldlM (write limit n) (List.replicate total 0, offsets)

def raise (offsets : List Nat) (i : Nat) : Option (List Nat) := do
  let x ← offsets[i]?
  store offsets (i + 1) x

/-- The cursors, moved up one place from the top down. -/
def shiftUp (n : Nat) (offsets : List Nat) : Option (List Nat) :=
  (List.range n).reverse.foldlM raise offsets

def sort (n : Nat) (ps : List Nat) : Option Buckets := do
  let offsets ← count limit n ps
  let offsets ← accumulate limit n offsets
  let (indices, offsets) ← fill limit n ps offsets
  let offsets ← shiftUp n offsets
  let offsets ← store offsets 0 0
  some ⟨offsets, indices⟩

end

/-- `&indices[offsets[k]..offsets[k + 1]]`. -/
def slice (b : Buckets) (k : Nat) : Option (List Nat) := do
  let start ← b.offsets[k]?
  let fin ← b.offsets[k + 1]?
  if start ≤ fin ∧ fin ≤ b.indices.length then some ((b.indices.take fin).drop start) else none

open Buckets

section

variable {limit n : Nat} {ps : List Nat}

theorem bump_eq {xs : List Nat} {i x amount : Nat} (hx : xs[i]? = some x)
    (hlimit : x + amount < limit) : bump limit xs i amount = some (xs.set i (x + amount)) := by
  rw [bump, hx]
  exact if_pos hlimit

theorem store_eq {xs : List Nat} {i : Nat} (hi : i < xs.length) (x : Nat) :
    store xs i x = some (xs.set i x) := if_pos hi

theorem modify_eq_set {xs : List Nat} {i x : Nat} (hx : xs[i]? = some x) :
    xs.modify i (· + 1) = xs.set i (x + 1) := by
  refine List.ext_getElem? fun j => ?_
  rw [List.getElem?_modify, List.getElem?_set]
  by_cases hij : i = j
  · subst hij
    have ⟨hlt, hget⟩ := List.getElem?_eq_some_iff.mp hx
    simp [hlt, hget]
  · simp [hij]

/-! ### First pass -/

theorem count_eq (h : ps.length < limit) : count limit n ps = some (counts n ps) := by
  induction ps using List.reverseRecOn with
  | nil => rfl
  | append_singleton ps p ih =>
    rw [List.length_append, List.length_singleton] at h
    have hstep : counts n (ps ++ [p]) =
        if p < n then (counts n ps).modify (p + 1) (· + 1) else counts n ps := by
      simp [counts, List.foldl_append]
    rw [count] at ih ⊢
    rw [List.foldlM_append, ih (by omega), hstep]
    by_cases hp : p < n
    · have hcount := (counts_getElem? n ps).2.2 p hp
      have hle : ps.count p ≤ ps.length := List.count_le_length
      rw [if_pos hp, modify_eq_set hcount]
      simp only [Option.bind_eq_bind, Option.bind_some, List.foldlM_cons, List.foldlM_nil,
        if_pos hp, bump_eq hcount (show ps.count p + 1 < limit by omega)]
      rfl
    · rw [if_neg hp]
      simp only [Option.bind_eq_bind, Option.bind_some, List.foldlM_cons, List.foldlM_nil,
        if_neg hp]
      rfl

/-- The offsets while they are summed: sums up to a place, counts after it. -/
structure Summed (n : Nat) (ps : List Nat) (place : Nat) (offsets : List Nat) : Prop where
  length : offsets.length = n + 1
  sums : ∀ k ≤ place, offsets[k]? = some (start ps k)
  counts : ∀ k, place ≤ k → k < n → offsets[k + 1]? = some (ps.count k)

theorem Summed.bump {place : Nat} {offsets : List Nat} (h : Summed n ps place offsets)
    (hplace : place < n) : Summed n ps (place + 1) (offsets.set (place + 1) (start ps (place + 1))) where
  length := by rw [List.length_set, h.length]
  sums := fun k hk => by
    rw [List.getElem?_set, h.length]
    by_cases hlast : place + 1 = k
    · subst hlast
      simp [hplace]
    · rw [if_neg hlast, h.sums k (by omega)]
  counts := fun k hk hkn => by
    rw [List.getElem?_set_ne (by omega), h.counts k (by omega) hkn]

theorem accumulate_summed (h : ps.length < limit) {place : Nat} (hplace : place ≤ n) :
    ∃ offsets, accumulate limit place (counts n ps) = some offsets ∧ Summed n ps place offsets := by
  have ⟨hlen, hzero, hsucc⟩ := counts_getElem? n ps
  induction place with
  | zero =>
    refine ⟨counts n ps, rfl, hlen, fun k hk => ?_, fun k _ hkn => hsucc k hkn⟩
    rw [Nat.le_zero.mp hk, hzero]
    rfl
  | succ place ih =>
    have ⟨offsets, hrun, hsummed⟩ := ih (by omega)
    refine ⟨_, ?_, hsummed.bump hplace⟩
    have hroom := start_le_length ps (place + 1)
    rw [start_succ] at hroom ⊢
    rw [accumulate] at hrun ⊢
    rw [List.range_succ, List.foldlM_append, hrun]
    simp only [Option.bind_eq_bind, Option.bind_some, List.foldlM_cons, List.foldlM_nil,
      hsummed.sums place (le_refl place)]
    rw [bump_eq (hsummed.counts place (le_refl place) hplace)
      (show ps.count place + start ps place < limit by omega),
      Nat.add_comm (ps.count place)]
    rfl

theorem accumulate_eq (h : ps.length < limit) : accumulate limit n (counts n ps) = some (starts n ps) := by
  have ⟨offsets, hrun, hsummed⟩ := accumulate_summed h (le_refl n)
  rw [hrun, Option.some.injEq]
  refine List.ext_getElem? fun k => ?_
  by_cases hk : k ≤ n
  · rw [hsummed.sums k hk, starts_getElem? n ps hk]
  · have hstarts : (starts n ps).length = n + 1 := length_starts n ps
    rw [List.getElem?_eq_none (by rw [hsummed.length]; omega), List.getElem?_eq_none (by omega)]

/-! ### Second pass -/

theorem write_eq (h : ps.length < limit) {xs : List Nat} {p : Nat} (hpre : xs ++ [p] <+: ps) :
    write limit n (filling n ps xs) (p, xs.length) = some (filling n ps (xs ++ [p])) := by
  have hfilled := filled_upTo (n := n) ((List.prefix_append xs [p]).trans hpre)
  rw [filling_concat, write, place]
  by_cases hp : p < n
  · have hcursor := hfilled.cursor p hp
    have hmore : xs.count p + 1 ≤ ps.count p := by
      have hle := hpre.sublist.count_le p
      simpa using hle
    have hend : start ps p + ps.count p ≤ start ps n := by
      rw [← start_succ]
      exact start_mono ps hp
    have hall := start_le_length ps n
    have hindex : xs.length % limit = xs.length := by
      have hlen := hpre.length_le
      rw [List.length_append, List.length_singleton] at hlen
      exact Nat.mod_eq_of_lt (by omega)
    simp only [if_pos hp, hcursor, Option.bind_eq_bind, Option.bind_some, Option.getD_some, hindex]
    rw [store_eq (by rw [hfilled.room]; omega), Option.bind_some, bump_eq hcursor (by omega),
      modify_eq_set hcursor]
    rfl
  · simp only [if_neg hp]

theorem fill_eq (h : ps.length < limit) : fill limit n ps (starts n ps) = some (filling n ps ps) := by
  have hrun : ∀ {xs : List Nat}, xs <+: ps → xs.zipIdx.foldlM (write limit n)
      (List.replicate (start ps n) 0, starts n ps) = some (filling n ps xs) := by
    intro xs
    induction xs using List.reverseRecOn with
    | nil =>
      intro _
      simp [filling, starts_getElem? n ps (le_refl n)]
    | append_singleton xs p ih =>
      intro hpre
      rw [List.zipIdx_append, List.foldlM_append, ih ((List.prefix_append xs [p]).trans hpre)]
      simp only [Option.bind_eq_bind, Option.bind_some, List.zipIdx_singleton, Nat.zero_add,
        List.foldlM_cons, List.foldlM_nil, write_eq h hpre]
      rfl
  rw [fill, starts_getElem? n ps (le_refl n)]
  exact hrun List.prefix_rfl

/-! ### The shift -/

theorem shiftUp_spec {m : Nat} {xs : List Nat} (h : m < xs.length) :
    ∃ ys, shiftUp m xs = some ys ∧ ys.length = xs.length ∧
      (∀ k < m, ys[k + 1]? = xs[k]?) ∧ ∀ k, m < k → ys[k]? = xs[k]? := by
  induction m generalizing xs with
  | zero => exact ⟨xs, rfl, rfl, nofun, fun _ _ => rfl⟩
  | succ m ih =>
    have ⟨x, hx⟩ : ∃ x, xs[m]? = some x := ⟨xs[m], List.getElem?_eq_getElem (by omega)⟩
    have hset : m < (xs.set (m + 1) x).length := by
      rw [List.length_set]
      omega
    have ⟨ys, hrun, hlen, hlow, hhigh⟩ := ih hset
    rw [List.length_set] at hlen
    have hraise : raise xs m = some (xs.set (m + 1) x) := by
      rw [raise, hx]
      exact store_eq h x
    refine ⟨ys, ?_, hlen, fun k hk => ?_, fun k hk => ?_⟩
    · rw [shiftUp, List.range_succ, List.reverse_append, List.reverse_singleton,
        List.singleton_append, List.foldlM_cons, hraise]
      exact hrun
    · by_cases hlast : k = m
      · subst hlast
        rw [hhigh (k + 1) (by omega), hx, List.getElem?_set_self h]
      · rw [hlow k (by omega), List.getElem?_set_ne (by omega)]
    · rw [hhigh k (by omega), List.getElem?_set_ne (by omega)]

theorem shiftUp_store {n : Nat} {xs : List Nat} (h : xs.length = n + 1) :
    (do let ys ← shiftUp n xs; store ys 0 0) = some (0 :: xs.take n) := by
  have ⟨ys, hrun, hlen, hlow, _⟩ := shiftUp_spec (show n < xs.length by omega)
  rw [hrun]
  refine (store_eq (by omega) 0).trans (congrArg some (List.ext_getElem? fun k => ?_))
  cases k with
  | zero => rw [List.getElem?_set_self (by omega), List.getElem?_cons_zero]
  | succ k =>
    rw [List.getElem?_set_ne (by omega), List.getElem?_cons_succ]
    by_cases hk : k < n
    · rw [hlow k hk, List.getElem?_take_of_lt hk]
    · rw [List.getElem?_eq_none (by omega), List.getElem?_take_eq_none (by omega)]

/-! ### The whole sort -/

theorem length_filling (n : Nat) (ps xs : List Nat) : (filling n ps xs).2.length = n + 1 := by
  induction xs using List.reverseRecOn with
  | nil => exact length_starts n ps
  | append_singleton xs p ih =>
    rw [filling_concat, place]
    split
    · rw [List.length_modify, ih]
    · exact ih

/-- No check fails, and the arrays are those of the sort without checks. -/
theorem sort_eq (h : ps.length < limit) : sort limit n ps = some (ofPositions n ps) := by
  have hshift := shiftUp_store (length_filling n ps ps)
  simp only [sort, count_eq h, accumulate_eq h, fill_eq h, Option.bind_eq_bind, Option.bind_some]
  have ⟨ys, hys, hstore⟩ := Option.bind_eq_some_iff.mp hshift
  rw [hys, Option.bind_some, hstore]
  rfl

theorem slice_eq {k : Nat} (hk : k < n) : slice (ofPositions n ps) k = some (indicesOf ps k) := by
  have hle : start ps k ≤ start ps (k + 1) := start_mono ps (Nat.le_succ k)
  have hend : start ps (k + 1) ≤ (ofPositions n ps).indices.length := by
    rw [length_indices]
    exact start_mono ps hk
  rw [← ofPositions_at n ps hk, slice, offset_eq_start ps (Nat.le_of_lt hk), Option.bind_eq_bind,
    Option.bind_some, offset_eq_start ps hk, Option.bind_some,
    if_pos ⟨hle, hend⟩, Buckets.at, offset_eq_start ps (Nat.le_of_lt hk), offset_eq_start ps hk,
    List.drop_take]
  rfl

end

end Vprogs.CountingSort
