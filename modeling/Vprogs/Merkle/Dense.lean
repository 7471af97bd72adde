import Mathlib.Data.Nat.Size
import Mathlib.Tactic.Linarith

/-!
Dense binary hash trees over an unbounded row of leaves. A node is addressed by
its level and its index in that level, so that the parent of index `i` is `i / 2`
whatever the depth. The peaks of `n` leaves are the complete subtrees that a
binary counter of `n` keeps, lowest level first.
-/
namespace Vprogs.Merkle
variable {α : Type*} (branch : α → α → α)

/-- The node at a level and index, over the leaves `leaf`. -/
def node (leaf : Nat → α) : Nat → Nat → α
  | 0, i => leaf i
  | level + 1, i => branch (node leaf level (2 * i)) (node leaf level (2 * i + 1))

/-- The root of the perfect tree over the first `2 ^ depth` leaves. -/
def root (leaf : Nat → α) (depth : Nat) : α :=
  node branch leaf depth 0

/-- The root of a subtree of empty leaves only. -/
def emptyRoot (empty : α) : Nat → α
  | 0 => empty
  | level + 1 => branch (emptyRoot empty level) (emptyRoot empty level)

def sibling (i : Nat) : Nat :=
  if i % 2 = 0 then i + 1 else i - 1

/-- The siblings met on the way up from a node, lowest first. -/
def siblings (leaf : Nat → α) (level i : Nat) : Nat → List α
  | 0 => []
  | n + 1 => node branch leaf level (sibling i) :: siblings leaf (level + 1) (i / 2) n

/-- Hashes a node up through its siblings; the bits of `i` say on which side the
current hash stands. -/
def climb (current : α) (i : Nat) : List α → α
  | [] => current
  | s :: rest =>
    climb (if i % 2 = 0 then branch current s else branch s current) (i / 2) rest

/-- The complete subtrees of the first `n` nodes of a level, with their levels. -/
def peaks (leaf : Nat → α) (level n : Nat) : List (Nat × α) :=
  if n = 0 then []
  else if n % 2 = 1 then (level, node branch leaf level (n - 1)) :: peaks leaf (level + 1) (n / 2)
  else peaks leaf (level + 1) (n / 2)
termination_by n

section
variable {leaf : Nat → α} {level i : Nat}

theorem node_succ_of_even (h : i % 2 = 0) :
    node branch leaf (level + 1) (i / 2) =
      branch (node branch leaf level i) (node branch leaf level (i + 1)) := by
  rw [node, show 2 * (i / 2) = i by omega]

theorem node_succ_of_odd (h : i % 2 = 1) :
    node branch leaf (level + 1) (i / 2) =
      branch (node branch leaf level (i - 1)) (node branch leaf level i) := by
  rw [node, show 2 * (i / 2) = i - 1 by omega, show i - 1 + 1 = i by omega]

end

variable {branch} {leaf : Nat → α} {empty : α} {level i n : Nat}

/-- A subtree that starts behind the last leaf is empty. -/
theorem node_of_le (hleaf : ∀ j, n ≤ j → leaf j = empty) (h : n ≤ i * 2 ^ level) :
    node branch leaf level i = emptyRoot branch empty level := by
  induction level generalizing i with
  | zero => exact hleaf i (by simpa using h)
  | succ level ih =>
    have hl : n ≤ 2 * i * 2 ^ level := by rw [pow_succ] at h; linarith
    have hr : n ≤ (2 * i + 1) * 2 ^ level := by
      rw [Nat.succ_mul]
      exact Nat.le_add_right_of_le hl
    rw [node, ih hl, ih hr, emptyRoot]

theorem climb_siblings (leaf : Nat → α) (level i d : Nat) :
    climb branch (node branch leaf level i) i (siblings branch leaf level i d) =
      node branch leaf (level + d) (i / 2 ^ d) := by
  induction d generalizing level i with
  | zero => simp [siblings, climb]
  | succ d ih =>
    have hstep : (if i % 2 = 0 then
          branch (node branch leaf level i) (node branch leaf level (sibling i))
        else branch (node branch leaf level (sibling i)) (node branch leaf level i)) =
        node branch leaf (level + 1) (i / 2) := by
      by_cases h : i % 2 = 0
      · rw [if_pos h, sibling, if_pos h, node_succ_of_even branch h]
      · rw [if_neg h, sibling, if_neg h, node_succ_of_odd branch (by omega)]
    rw [siblings, climb, hstep, ih, Nat.div_div_eq_div_mul, ← pow_succ', Nat.add_right_comm,
      Nat.add_assoc]

/-- Every leaf of the perfect tree climbs to its root. -/
theorem climb_leaf {d : Nat} (h : i < 2 ^ d) :
    climb branch (leaf i) i (siblings branch leaf 0 i d) = root branch leaf d := by
  have hclimb : climb branch (leaf i) i (siblings branch leaf 0 i d) =
      node branch leaf (0 + d) (i / 2 ^ d) :=
    climb_siblings leaf 0 i d
  rwa [Nat.zero_add, Nat.div_eq_of_lt h] at hclimb

@[simp] theorem peaks_zero : peaks branch leaf level 0 = [] := by
  rw [peaks, if_pos rfl]

theorem peaks_of_odd (h : n % 2 = 1) :
    peaks branch leaf level n =
      (level, node branch leaf level (n - 1)) :: peaks branch leaf (level + 1) (n / 2) := by
  rw [peaks, if_neg (by omega), if_pos h]

theorem peaks_of_even (h : n % 2 = 0) :
    peaks branch leaf level n = peaks branch leaf (level + 1) (n / 2) := by
  by_cases hz : n = 0
  · subst hz
    simp
  · rw [peaks, if_neg hz, if_neg (by omega)]

theorem le_of_mem_peaks {p : Nat × α} (h : p ∈ peaks branch leaf level n) : level ≤ p.1 := by
  fun_induction peaks branch leaf level n with
  | case1 => cases h
  | case2 level n _ _ ih =>
    cases h with
    | head => exact Nat.le_refl _
    | tail _ h => exact Nat.le_of_succ_le (ih h)
  | case3 level n _ _ ih => exact Nat.le_of_succ_le (ih h)

theorem length_peaks_le {d : Nat} (h : n < 2 ^ d) : (peaks branch leaf level n).length ≤ d := by
  induction d generalizing level n with
  | zero =>
    have hn : n = 0 := by simpa using h
    simp [hn]
  | succ d ih =>
    have hhalf : n / 2 < 2 ^ d := by rw [pow_succ] at h; omega
    match Nat.mod_two_eq_zero_or_one n with
    | .inl heven =>
      rw [peaks_of_even heven]
      exact Nat.le_succ_of_le (ih hhalf)
    | .inr hodd =>
      rw [peaks_of_odd hodd, List.length_cons]
      exact Nat.succ_le_succ (ih hhalf)

theorem peaks_ne_nil (h : n ≠ 0) : peaks branch leaf level n ≠ [] := by
  fun_induction peaks branch leaf level n with
  | case1 => exact absurd rfl h
  | case2 => exact List.cons_ne_nil _ _
  | case3 level n _ _ ih => exact ih (by omega)

/-- The lowest peak ends at the last leaf: it is node `m` of its level, and the
peaks above it are those of the `m` nodes on its left. -/
theorem peaks_eq_cons (h : n ≠ 0) :
    ∃ k m, peaks branch leaf level n =
        (level + k, node branch leaf (level + k) m) :: peaks branch leaf (level + k) m ∧
      n = (m + 1) * 2 ^ k := by
  fun_induction peaks branch leaf level n with
  | case1 => exact absurd rfl h
  | case2 level n _ hodd ih =>
    refine ⟨0, n - 1, ?_, by rw [pow_zero]; omega⟩
    simp only [Nat.add_zero]
    rw [peaks_of_even (n := n - 1) (by omega), show (n - 1) / 2 = n / 2 by omega]
  | case3 level n _ _ ih =>
    have ⟨k, m, heq, hn⟩ := ih (by omega)
    refine ⟨k + 1, m, ?_, ?_⟩
    · rw [show level + (k + 1) = level + 1 + k by omega, heq]
    · rw [pow_succ, ← mul_assoc, ← hn]
      omega

end Vprogs.Merkle
