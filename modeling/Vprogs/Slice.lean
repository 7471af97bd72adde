import Vprogs.Outcome
import Mathlib.Data.List.Basic

/-!
Binary search for the boundary of a predicate over an index range, with the
probe order of `slice::partition_point`. On a range that is not partitioned
the answer is unspecified; only the bound `partitionPointM_le` holds then.
-/
namespace Vprogs

section
variable {m : Type → Type} [Monad m]

/-- One halving of the search window per round; `size` bounds the rounds. -/
def partitionLoop (pred : Nat → m Bool) : Nat → Nat → Nat → m Nat
  | 0, base, _ => do
      let below ← pred base
      pure (base + below.toNat)
  | rounds + 1, base, size =>
    if size ≤ 1 then do
      let below ← pred base
      pure (base + below.toNat)
    else do
      let half := size / 2
      let below ← pred (base + half)
      partitionLoop pred rounds (if below then base + half else base) (size - half)

def partitionPointM (pred : Nat → m Bool) (n : Nat) : m Nat :=
  if n = 0 then pure 0 else partitionLoop pred n 0 n

theorem partitionLoop_eq [LawfulMonad m] {pred : Nat → m Bool} {n bound : Nat}
    (partitioned : ∀ i < n, pred i = pure (decide (i < bound))) {rounds base size : Nat}
    (enough : size ≤ rounds + 1) (hs : 1 ≤ size) (hn : base + size ≤ n) (hlow : base ≤ bound)
    (hhigh : bound ≤ base + size) : partitionLoop pred rounds base size = pure bound := by
  have last : ∀ {b : Nat}, b < n → b ≤ bound → bound ≤ b + 1 →
      (do let below ← pred b; pure (b + below.toNat)) = (pure bound : m Nat) := by
    intro b hb hlow hhigh
    rw [partitioned b hb, pure_bind]
    by_cases h : b < bound
    · simp [show bound = b + 1 by omega]
    · simp [show bound = b by omega]
  induction rounds generalizing base size with
  | zero => exact last (by omega) hlow (by omega)
  | succ rounds ih =>
    rw [partitionLoop]
    by_cases hsmall : size ≤ 1
    · rw [if_pos hsmall]
      exact last (by omega) hlow (by omega)
    · rw [if_neg hsmall]
      simp only [partitioned (base + size / 2) (by omega), pure_bind]
      by_cases h : base + size / 2 < bound
      · simp only [h, decide_true, if_true]
        exact ih (by omega) (by omega) (by omega) (by omega) (by omega)
      · simp only [h, decide_false, Bool.false_eq_true, if_false]
        exact ih (by omega) (by omega) (by omega) (by omega) (by omega)

/-- On a partitioned range the search finds the boundary. -/
theorem partitionPointM_eq [LawfulMonad m] {pred : Nat → m Bool} {n bound : Nat} (hb : bound ≤ n)
    (partitioned : ∀ i < n, pred i = pure (decide (i < bound))) : partitionPointM pred n = pure bound := by
  unfold partitionPointM
  split
  · rw [show bound = 0 by omega]
  · exact partitionLoop_eq partitioned (by omega) (by omega) (by omega) (by omega) (by omega)

end

def partitionPoint (pred : Nat → Bool) (n : Nat) : Nat :=
  partitionPointM (m := Id) pred n

theorem partitionPoint_eq {pred : Nat → Bool} {n bound : Nat} (hb : bound ≤ n)
    (partitioned : ∀ i < n, pred i = decide (i < bound)) : partitionPoint pred n = bound :=
  partitionPointM_eq (m := Id) hb partitioned

/-- `partition_point` on a slice. -/
def slicePartitionPoint {α : Type} (pred : α → Bool) (xs : List α) : Nat :=
  partitionPoint
    (fun i => match xs[i]? with
      | some x => pred x
      | none => false) xs.length

theorem slicePartitionPoint_append {α : Type} {pred : α → Bool} {xs ys : List α}
    (hxs : ∀ x ∈ xs, pred x = true) (hys : ∀ y ∈ ys, pred y = false) :
    slicePartitionPoint pred (xs ++ ys) = xs.length := by
  refine partitionPoint_eq (by simp) fun i hi => ?_
  by_cases h : i < xs.length
  · rw [List.getElem?_append_left h, List.getElem?_eq_getElem h]
    simp [h, hxs _ (List.getElem_mem h)]
  · have hlen : i - xs.length < ys.length := by
      rw [List.length_append] at hi
      omega
    rw [List.getElem?_append_right (by omega), List.getElem?_eq_getElem hlen]
    simp [h, hys _ (List.getElem_mem hlen)]

/-- On a slice whose predicate never comes back once it failed, the partition
point separates the elements that satisfy it from those that do not. -/
theorem slicePartitionPoint_split {α : Type} {pred : α → Bool} {xs : List α}
    (mono : xs.Pairwise fun a b => pred b = true → pred a = true) :
    slicePartitionPoint pred xs = (xs.filter pred).length ∧
      xs.take (slicePartitionPoint pred xs) = xs.filter pred ∧
      xs.drop (slicePartitionPoint pred xs) = xs.filter fun x => !pred x := by
  have parts : xs.filter pred ++ xs.filter (fun x => !pred x) = xs := by
    induction xs with
    | nil => rfl
    | cons x xs ih =>
      have ⟨first, rest⟩ := List.pairwise_cons.mp mono
      cases hx : pred x with
      | true =>
        rw [List.filter_cons_of_pos hx, List.filter_cons_of_neg (by simp [hx]),
          List.cons_append, ih rest]
      | false =>
        have none : xs.filter pred = [] := by
          rw [List.filter_eq_nil_iff]
          intro y hy hpy
          rw [first y hy hpy] at hx
          cases hx
        have all : xs.filter (fun x => !pred x) = xs := by
          simpa [none] using ih rest
        rw [List.filter_cons_of_neg (by simp [hx]), none,
          List.filter_cons_of_pos (by simp [hx]), all, List.nil_append]
  have hmid : slicePartitionPoint pred xs = (xs.filter pred).length := by
    nth_rewrite 1 [← parts]
    exact slicePartitionPoint_append (fun x hx => (List.mem_filter.mp hx).2)
      (fun x hx => by simpa using (List.mem_filter.mp hx).2)
  rw [hmid]
  exact ⟨rfl, (congrArg (List.take _) parts).symm.trans List.take_left,
    (congrArg (List.drop _) parts).symm.trans List.drop_left⟩

/-! ### Two searches over one range -/

section Pure

variable {p q : Nat → Bool}

def pureLoop (p : Nat → Bool) (rounds base size : Nat) : Nat :=
  partitionLoop (m := Id) p rounds base size

theorem pureLoop_succ (rounds base size : Nat) :
    pureLoop p (rounds + 1) base size =
      if size ≤ 1 then base + (p base).toNat
      else pureLoop p rounds
        (if p (base + size / 2) then base + size / 2 else base) (size - size / 2) := by
  rw [pureLoop, partitionLoop]
  split <;> rfl

theorem le_pureLoop (rounds base size : Nat) : base ≤ pureLoop p rounds base size := by
  induction rounds generalizing base size with
  | zero => exact Nat.le_add_right _ _
  | succ rounds ih =>
    rw [pureLoop_succ]
    split
    · exact Nat.le_add_right _ _
    · refine Nat.le_trans ?_ (ih _ _)
      split <;> omega

/-- A search whose window ends at an index where the predicate fails does not
pass that index. -/
theorem pureLoop_le_of_false {k : Nat} (hk : p k = false) {rounds base size : Nat} (hs : 1 ≤ size)
    (hend : base + size ≤ k + 1) : pureLoop p rounds base size ≤ k := by
  have last : ∀ {b : Nat}, b ≤ k → b + (p b).toNat ≤ k := by
    intro b hb
    by_cases heq : b = k
    · simp [heq, hk]
    · have := (p b).toNat_le
      omega
  induction rounds generalizing base size with
  | zero => exact last (by omega)
  | succ rounds ih =>
    rw [pureLoop_succ]
    split
    · exact last (by omega)
    · exact ih (by omega) (by split <;> omega)

theorem pureLoop_mono (hpq : ∀ i, p i = true → q i = true) {rounds base size : Nat} (hs : 1 ≤ size) :
    pureLoop p rounds base size ≤ pureLoop q rounds base size := by
  have last : ∀ b, b + (p b).toNat ≤ b + (q b).toNat := by
    intro b
    have := hpq b
    cases hp : p b <;> simp_all
  induction rounds generalizing base size with
  | zero => exact last base
  | succ rounds ih =>
    rw [pureLoop_succ, pureLoop_succ]
    split
    · exact last base
    · -- The probes agree until the weaker predicate alone holds; then the two
      -- windows meet at that probe.
      cases hp : p (base + size / 2) with
      | true =>
        rw [hpq _ hp]
        exact ih (by omega)
      | false =>
        cases hq : q (base + size / 2) with
        | false => exact ih (by omega)
        | true =>
          refine Nat.le_trans (pureLoop_le_of_false hp (by omega) ?_)
            (le_pureLoop _ _ _)
          simp only [Bool.false_eq_true, if_false]
          omega

theorem partitionPoint_mono (hpq : ∀ i, p i = true → q i = true) (n : Nat) :
    partitionPoint p n ≤ partitionPoint q n := by
  unfold partitionPoint partitionPointM
  split
  · exact Nat.le_refl 0
  · exact pureLoop_mono hpq (by omega)

end Pure

theorem slicePartitionPoint_mono {α : Type} {p q : α → Bool} (hpq : ∀ x, p x = true → q x = true)
    (xs : List α) : slicePartitionPoint p xs ≤ slicePartitionPoint q xs := by
  refine partitionPoint_mono ?_ _
  intro i hi
  cases hx : xs[i]? with
  | none => simp [hx] at hi
  | some x =>
    simp only [hx] at hi ⊢
    exact hpq x hi

variable {ε : Type} {pred : Nat → Outcome ε Bool}

theorem partitionLoop_le {rounds base size mid : Nat} (hs : 1 ≤ size)
    (h : partitionLoop pred rounds base size = .ok mid) : mid ≤ base + size := by
  have last : ∀ {b s : Nat}, 1 ≤ s →
      (do let below ← pred b; pure (b + below.toNat) : Outcome ε Nat) = .ok mid →
      mid ≤ b + s := by
    intro b s hs h
    obtain ⟨below, _, hmid⟩ := ok_bind_iff.mp h
    cases hmid
    have := below.toNat_le
    omega
  induction rounds generalizing base size with
  | zero => exact last hs h
  | succ rounds ih =>
    rw [partitionLoop] at h
    by_cases hsmall : size ≤ 1
    · rw [if_pos hsmall] at h
      exact last hs h
    · rw [if_neg hsmall] at h
      obtain ⟨below, _, hrest⟩ := ok_bind_iff.mp h
      have := ih (by omega) hrest
      split at this <;> omega

theorem partitionPointM_le {n mid : Nat} (h : partitionPointM pred n = .ok mid) : mid ≤ n := by
  rw [partitionPointM] at h
  split at h
  · cases h
    omega
  · have := partitionLoop_le (by omega) h
    omega

/-- The search aborts only if a probe inside the range does. -/
theorem reports_partitionPointM {E : ε → Prop} {n : Nat} (h : ∀ i < n, Reports E (pred i)) :
    Reports E (partitionPointM pred n) := by
  have last : ∀ b < n, Reports E (do let below ← pred b; pure (b + below.toNat) : Outcome ε Nat) :=
    fun b hb => reports_bind.mpr ⟨h b hb, fun _ _ => trivial⟩
  have loop : ∀ {rounds base size : Nat}, 1 ≤ size → base + size ≤ n →
      Reports E (partitionLoop pred rounds base size) := by
    intro rounds
    induction rounds with
    | zero => exact fun hs hn => last _ (by omega)
    | succ rounds ih =>
      intro base size hs hn
      rw [partitionLoop]
      split
      · exact last base (by omega)
      · refine reports_bind.mpr ⟨h _ (by omega), fun below _ => ih (by omega) ?_⟩
        split <;> omega
  rw [partitionPointM]
  split
  · trivial
  · exact loop (by omega) (by omega)

end Vprogs
