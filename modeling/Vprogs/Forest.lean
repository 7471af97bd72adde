import Mathlib.Order.Lattice.Nat

/-!
A log of nodes, each naming the position of an earlier one as its parent; the root is
at position 0. Nodes are only added at the end, so that a position never changes its
meaning. A branch lists the positions from the root's child to one node of the tree.
-/
namespace Vprogs.Forest

variable {α κ : Type*} (parent : α → Nat) (Link : α → α → Prop) (log : List α)

/-- Every node but the root stands in `Link` to the earlier node it names. -/
def Grown : Prop :=
  ∀ b y, 0 < b → log[b]? = some y → parent y < b ∧ ∃ x, log[parent y]? = some x ∧ Link x y

def Edge (a b : Nat) : Prop := a < b ∧ ∃ y, log[b]? = some y ∧ parent y = a

def Branch (ids : List Nat) : Prop := List.IsChain (Edge parent log) (0 :: ids)

/-- Where a branch ends. -/
def tip (ids : List Nat) : Nat := ids.getLast?.getD 0

variable {parent Link log}

theorem grown_root (x : α) : Grown parent Link [x] := by
  intro b y hb hy
  have hlt := (List.getElem?_eq_some_iff.mp hy).1
  rw [List.length_singleton] at hlt
  omega

theorem getElem?_concat_of_some {a : Nat} {x y : α} (h : log[a]? = some x) : (log ++ [y])[a]? = some x := by
  rw [List.getElem?_append_left (List.getElem?_eq_some_iff.mp h).1, h]

theorem Grown.concat (h : Grown parent Link log) {x y : α} (hx : log[parent y]? = some x)
    (hlink : Link x y) : Grown parent Link (log ++ [y]) := by
  intro b z hb hz
  rw [List.getElem?_append] at hz
  split at hz
  · have ⟨hlt, x', hx', hlink'⟩ := h b z hb hz
    exact ⟨hlt, x', getElem?_concat_of_some hx', hlink'⟩
  · next hge =>
    have hlast := List.getElem?_eq_some_iff.mp hz
    have hbound := hlast.1
    rw [List.length_singleton] at hbound
    have heq : b = log.length := by omega
    subst heq
    rw [Nat.sub_self] at hz
    cases hz
    exact ⟨(List.getElem?_eq_some_iff.mp hx).1, x, getElem?_concat_of_some hx, hlink⟩

theorem Edge.concat {a b : Nat} (h : Edge parent log a b) (y : α) : Edge parent (log ++ [y]) a b := by
  have ⟨hlt, x, hx, hparent⟩ := h
  exact ⟨hlt, x, getElem?_concat_of_some hx, hparent⟩

theorem edge_last {y : α} (h : parent y < log.length) : Edge parent (log ++ [y]) (parent y) log.length :=
  ⟨h, y, List.getElem?_concat_length, rfl⟩

/-- Two positions with the same key are one. -/
theorem position_unique {key : α → κ} (hnodup : (log.map key).Nodup) {a b : Nat} {x y : α}
    (hx : log[a]? = some x) (hy : log[b]? = some y) (hkey : key x = key y) : a = b := by
  have hx' : (log.map key)[a]? = some (key x) := by rw [List.getElem?_map, hx]; rfl
  have hy' : (log.map key)[b]? = some (key x) := by rw [List.getElem?_map, hy, hkey]; rfl
  exact (List.getElem?_inj (List.getElem?_eq_some_iff.mp hx').1 hnodup).mp (hx'.trans hy'.symm)

namespace Branch

variable {ids : List Nat}

theorem nil : Branch parent log [] := List.isChain_singleton 0

theorem grow (h : Branch parent log ids) (y : α) : Branch parent (log ++ [y]) ids :=
  List.IsChain.imp (fun _ _ hedge => hedge.concat y) h

theorem pairwise (h : Branch parent log ids) : (0 :: ids).Pairwise (· < ·) :=
  List.isChain_iff_pairwise.mp (List.IsChain.imp (fun _ _ hedge => hedge.1) h)

theorem pos (h : Branch parent log ids) {i : Nat} (hi : i ∈ ids) : 0 < i :=
  (List.pairwise_cons.mp h.pairwise).1 i hi

theorem take (h : Branch parent log ids) (n : Nat) : Branch parent log (ids.take n) :=
  List.IsChain.take h (n + 1)

theorem concat (h : Branch parent log ids) {b : Nat} (hedge : Edge parent log (tip ids) b) :
    Branch parent log (ids ++ [b]) := by
  refine List.isChain_append.mpr ⟨h, List.isChain_singleton b, ?_⟩
  intro x hx y hy
  cases hy
  rw [List.getLast?_cons, Option.mem_some_iff] at hx
  exact hx ▸ hedge

theorem le_tip (h : Branch parent log ids) {i : Nat} (hi : i ∈ ids) : i ≤ tip ids := by
  have ⟨front, last, hids⟩ := List.eq_nil_or_concat' ids |>.resolve_left (List.ne_nil_of_mem hi)
  subst hids
  rw [tip, List.getLast?_concat]
  have hpairwise := (List.pairwise_append.mp (List.pairwise_cons.mp h.pairwise).2).2.2
  match List.mem_append.mp hi with
  | .inl hfront => exact Nat.le_of_lt (hpairwise i hfront last (List.mem_singleton_self last))
  | .inr hlast => exact Nat.le_of_eq (List.mem_singleton.mp hlast)

/-- The tip is the root or on the branch. -/
theorem tip_mem (ids : List Nat) : tip ids = 0 ∧ ids = [] ∨ tip ids ∈ ids := by
  match List.eq_nil_or_concat' ids with
  | .inl hnil => exact .inl ⟨by rw [hnil]; rfl, hnil⟩
  | .inr ⟨front, last, hids⟩ =>
    refine .inr ?_
    rw [hids, tip, List.getLast?_concat]
    exact List.mem_append_right front (List.mem_singleton_self last)

theorem tip_eq_sup (h : Branch parent log ids) : ids.toFinset.sup id = tip ids := by
  refine Nat.le_antisymm (Finset.sup_le fun i hi => h.le_tip (List.mem_toFinset.mp hi)) ?_
  match tip_mem ids with
  | .inl ⟨hzero, _⟩ => exact hzero ▸ Nat.zero_le _
  | .inr hmem => exact Finset.le_sup (f := id) (List.mem_toFinset.mpr hmem)

/-- The node after the first `n` names the tip of those as its parent. -/
theorem edge_take (h : Branch parent log ids) {n : Nat} {b : Nat} (hb : ids[n]? = some b) :
    Edge parent log (tip (ids.take n)) b := by
  have ⟨hlt, heq⟩ := List.getElem?_eq_some_iff.mp hb
  have hsplit : ids = ids.take n ++ b :: ids.drop (n + 1) := by
    rw [← heq, ← List.drop_eq_getElem_cons hlt, List.take_append_drop]
  have hchain : List.IsChain (Edge parent log) ((0 :: ids.take n) ++ b :: ids.drop (n + 1)) := by
    have h' := h
    rw [Branch, hsplit] at h'
    exact h'
  have hrel := (List.isChain_append.mp hchain).2.2 (tip (ids.take n)) (by
    rw [List.getLast?_cons, Option.mem_some_iff]
    rfl) b rfl
  exact hrel

/-- Along a branch of a grown log every node is linked to the next. -/
theorem linked (h : Branch parent log ids) (hgrown : Grown parent Link log) :
    List.IsChain (fun a b => a < b ∧ ∃ x y, log[a]? = some x ∧ log[b]? = some y ∧ parent y = a ∧ Link x y)
      (0 :: ids) := by
  refine List.IsChain.imp (fun a b hedge => ?_) h
  have ⟨hlt, y, hy, hparent⟩ := hedge
  have ⟨_, x, hx, hlink⟩ := hgrown b y (Nat.zero_lt_of_lt hlt) hy
  exact ⟨hlt, x, y, hparent ▸ hx, hy, hparent, hlink⟩

theorem lt_length (h : Branch parent log ids) {i : Nat} (hi : i ∈ ids) : i < log.length := by
  have ⟨k, hk⟩ := List.mem_iff_getElem?.mp hi
  have ⟨_, y, hy, _⟩ := h.edge_take hk
  exact (List.getElem?_eq_some_iff.mp hy).1

/-- The positions up to an earlier tip are those of the shorter branch. -/
theorem filter_le_tip (h : Branch parent log ids) (n : Nat) :
    ids.toFinset.filter (· ≤ tip (ids.take n)) = (ids.take n).toFinset := by
  have hshort := h.take n
  ext i
  rw [Finset.mem_filter, List.mem_toFinset, List.mem_toFinset]
  constructor
  · rintro ⟨hi, hle⟩
    have ⟨k, hk⟩ := List.mem_iff_getElem?.mp hi
    by_contra hnot
    have hge : n ≤ k := by
      by_contra hlt
      exact hnot (List.mem_iff_getElem?.mpr ⟨k, by rw [List.getElem?_take_of_lt (by omega), hk]⟩)
    have hlast : tip (ids.take n) < i := by
      match tip_mem (ids.take n) with
      | .inl ⟨hzero, _⟩ => exact hzero ▸ h.pos hi
      | .inr hmem =>
        have hdrop : i ∈ ids.drop n := List.mem_iff_getElem?.mpr ⟨k - n, by
          rw [List.getElem?_drop, ← hk]
          congr 1
          omega⟩
        have hpairwise := (List.pairwise_cons.mp h.pairwise).2
        rw [← List.take_append_drop n ids] at hpairwise
        exact (List.pairwise_append.mp hpairwise).2.2 _ hmem i hdrop
    omega
  · intro hi
    exact ⟨List.mem_of_mem_take hi, hshort.le_tip hi⟩

end Branch

end Vprogs.Forest
