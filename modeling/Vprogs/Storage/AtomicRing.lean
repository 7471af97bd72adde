import Mathlib.Data.List.Basic

/-!
An index-addressed rolling buffer. Entries are pushed at the tip and pruned off the
base; an index sits in the slot of its residue, together with the index itself, and
the slot array grows when the live range would wrap onto itself.
-/
namespace Vprogs

variable {V : Type}

/-- Indices closer than the capacity have slots of their own. -/
theorem mod_ne_of_lt {i j n : Nat} (hlt : i < j) (hclose : j < i + n) : i % n ≠ j % n := by
  intro heq
  have hzero := Nat.sub_mod_eq_zero_of_mod_eq heq.symm
  rw [Nat.mod_eq_of_lt (by omega)] at hzero
  omega

/-- The slot an index maps to. -/
def slotAt (slots : List (Option (Nat × V))) (index : Nat) : Option (Nat × V) :=
  slots[index % slots.length]?.join

def storeAt (slots : List (Option (Nat × V))) (index : Nat) (value : V) : List (Option (Nat × V)) :=
  slots.set (index % slots.length) (some (index, value))

section slots

variable {slots : List (Option (Nat × V))} {i j : Nat} {v : V}

@[simp] theorem length_storeAt : (storeAt slots i v).length = slots.length := by
  simp [storeAt]

theorem slotAt_storeAt_self (hpos : 0 < slots.length) : slotAt (storeAt slots i v) i = some (i, v) := by
  unfold slotAt
  rw [length_storeAt, storeAt, List.getElem?_set_self (Nat.mod_lt i hpos)]
  rfl

theorem slotAt_storeAt_of_ne (hne : i % slots.length ≠ j % slots.length) :
    slotAt (storeAt slots i v) j = slotAt slots j := by
  unfold slotAt
  rw [length_storeAt, storeAt, List.getElem?_set_ne hne]

end slots

structure AtomicRing (V : Type) where
  /-- Index of the oldest live entry. -/
  base : Nat
  /-- One past the highest live index. -/
  tip : Nat
  slots : List (Option (Nat × V))
  base_le : base ≤ tip
  capacity_pos : 0 < slots.length
  fits : tip ≤ base + slots.length
  live : ∀ i, base ≤ i → i < tip → ∃ v, slotAt slots i = some (i, v)

namespace AtomicRing

def DEFAULT_CAPACITY : Nat := 64

def new (base : Nat) : AtomicRing V where
  base := base
  tip := base
  slots := List.replicate DEFAULT_CAPACITY none
  base_le := Nat.le_refl _
  capacity_pos := by simp [DEFAULT_CAPACITY]
  fits := Nat.le_add_right _ _
  live i hbase htip := by omega

variable (r : AtomicRing V)

def nextIndex : Nat := r.tip

/-- Reads an index of the live range; a slot reused for another index is rejected. -/
def get (index : Nat) : Option V :=
  if index < r.base ∨ r.tip ≤ index then none
  else match slotAt r.slots index with
    | some (i, v) => if i = index then some v else none
    | none => none

/-- The first `count` live entries, placed into empty slots. -/
def copyLive (capacity : Nat) : Nat → List (Option (Nat × V))
  | 0 => List.replicate capacity none
  | count + 1 =>
    match slotAt r.slots (r.base + count) with
    | some (i, v) =>
      if i = r.base + count then storeAt (copyLive capacity count) i v
      else copyLive capacity count
    | none => copyLive capacity count

theorem length_copyLive (capacity count : Nat) : (r.copyLive capacity count).length = capacity := by
  induction count with
  | zero => simp [copyLive]
  | succ count ih =>
    unfold copyLive
    split
    · split
      · rw [length_storeAt, ih]
      · exact ih
    · exact ih

theorem slotAt_copyLive {capacity count : Nat} (hcapacity : 0 < capacity)
    (hcount : r.base + count ≤ r.tip) (hfits : count ≤ capacity) {i : Nat} (hbase : r.base ≤ i)
    (hlt : i < r.base + count) : slotAt (r.copyLive capacity count) i = slotAt r.slots i := by
  induction count with
  | zero => omega
  | succ count ih =>
    have ⟨v, hv⟩ := r.live (r.base + count) (by omega) (by omega)
    have hlength := r.length_copyLive capacity count
    rw [copyLive, hv]
    dsimp only
    rw [if_pos rfl]
    by_cases heq : i = r.base + count
    · rw [heq, hv, slotAt_storeAt_self (by omega)]
    · rw [slotAt_storeAt_of_ne, ih (by omega) (by omega) (by omega)]
      rw [hlength]
      exact (mod_ne_of_lt (by omega) (by omega)).symm

/-- Twice the slots, with the live entries placed again. -/
def grow : AtomicRing V where
  base := r.base
  tip := r.tip
  slots := r.copyLive (r.slots.length * 2) (r.tip - r.base)
  base_le := r.base_le
  capacity_pos := by
    rw [length_copyLive]
    have := r.capacity_pos
    omega
  fits := by
    rw [length_copyLive]
    have := r.fits
    omega
  live i hbase htip := by
    have hpos := r.capacity_pos
    have hfits := r.fits
    rw [slotAt_copyLive r (by omega) (by omega) (by omega) hbase (by omega)]
    exact r.live i hbase htip

/-- Grown where the next index would wrap onto a live entry. -/
def reserve : AtomicRing V := if r.base + r.slots.length ≤ r.tip then r.grow else r

@[simp] theorem base_reserve : r.reserve.base = r.base := by
  unfold reserve
  split <;> rfl

@[simp] theorem tip_reserve : r.reserve.tip = r.tip := by
  unfold reserve
  split <;> rfl

theorem room_reserve : r.tip < r.base + r.reserve.slots.length := by
  have hpos := r.capacity_pos
  have hfits := r.fits
  unfold reserve
  split
  · change r.tip < r.base + (r.copyLive _ _).length
    rw [length_copyLive]
    omega
  · omega

/-- Stores at the next index. -/
def push (value : V) : AtomicRing V where
  base := r.base
  tip := r.tip + 1
  slots := storeAt r.reserve.slots r.tip value
  base_le := Nat.le_succ_of_le r.base_le
  capacity_pos := by
    rw [length_storeAt]
    exact r.reserve.capacity_pos
  fits := by
    rw [length_storeAt]
    exact r.room_reserve
  live i hbase htip := by
    by_cases heq : i = r.tip
    · exact ⟨value, heq ▸ slotAt_storeAt_self r.reserve.capacity_pos⟩
    · have hroom := r.room_reserve
      rw [slotAt_storeAt_of_ne (mod_ne_of_lt (by omega) (by omega)).symm]
      exact r.reserve.live i (by rwa [base_reserve]) (by rw [tip_reserve]; omega)

/-- Overwrites a live entry; nothing happens outside the live range. -/
def replace (index : Nat) (value : V) : AtomicRing V :=
  if h : index < r.base ∨ r.tip ≤ index then r
  else
    { r with
      slots := storeAt r.slots index value
      capacity_pos := by
        rw [length_storeAt]
        exact r.capacity_pos
      fits := by
        rw [length_storeAt]
        exact r.fits
      live := fun i hbase htip => by
        have hfits := r.fits
        by_cases heq : i = index
        · exact ⟨value, heq ▸ slotAt_storeAt_self r.capacity_pos⟩
        · have hne : index % r.slots.length ≠ i % r.slots.length := by
            match Nat.lt_or_gt_of_ne heq with
            | .inl hlt => exact (mod_ne_of_lt hlt (by omega)).symm
            | .inr hlt => exact mod_ne_of_lt hlt (by omega)
          rw [slotAt_storeAt_of_ne hne]
          exact r.live i hbase htip }

/-- A ring of its own over the same live range; the entries are shared. -/
def fork : AtomicRing V where
  base := r.base
  tip := r.tip
  slots := r.copyLive r.slots.length (r.tip - r.base)
  base_le := r.base_le
  capacity_pos := by
    rw [length_copyLive]
    exact r.capacity_pos
  fits := by
    rw [length_copyLive]
    exact r.fits
  live i hbase htip := by
    have hfits := r.fits
    rw [slotAt_copyLive r r.capacity_pos (by omega) (by omega) hbase (by omega)]
    exact r.live i hbase htip

/-- Drops the entries from `start` on, within the live range. -/
def truncateFrom (start : Nat) : AtomicRing V :=
  { r with
    tip := min (max start r.base) r.tip
    base_le := by
      have := r.base_le
      omega
    fits := by
      have := r.fits
      omega
    live := fun i hbase htip => r.live i hbase (by omega) }

/-- Drops the entries below `below`; the base only advances, and not past the tip. -/
def pruneBelow (below : Nat) : AtomicRing V :=
  { r with
    base := min (max below r.base) r.tip
    base_le := Nat.min_le_right _ _
    fits := by
      have := r.fits
      have := r.base_le
      omega
    live := fun i hbase htip => r.live i (by have := r.base_le; omega) htip }

/-! ### What a read sees -/

variable {r} {i j : Nat} {v : V}

theorem get_eq_some_iff : r.get i = some v ↔ r.base ≤ i ∧ i < r.tip ∧ slotAt r.slots i = some (i, v) := by
  unfold get
  split
  · next h =>
    constructor
    · intro hnone
      cases hnone
    · intro ⟨hbase, htip, _⟩
      omega
  · next h =>
    have ⟨w, hw⟩ := r.live i (by omega) (by omega)
    rw [hw]
    dsimp only
    rw [if_pos rfl]
    constructor
    · intro heq
      exact ⟨by omega, by omega, by rw [Option.some.inj heq]⟩
    · intro ⟨_, _, heq⟩
      rw [Option.some.inj heq |> Prod.mk.inj |>.2]

theorem get_eq_none_iff : r.get i = none ↔ i < r.base ∨ r.tip ≤ i := by
  constructor
  · intro h
    by_contra hlive
    have ⟨w, hw⟩ := r.live i (by omega) (by omega)
    rw [get_eq_some_iff.mpr ⟨by omega, by omega, hw⟩] at h
    cases h
  · intro h
    rw [get, if_pos h]

/-- Rings with the same live range and slots there read the same. -/
theorem get_congr {r' : AtomicRing V} (hbase : r'.base ≤ i ↔ r.base ≤ i) (htip : i < r'.tip ↔ i < r.tip)
    (hslot : r.base ≤ i → i < r.tip → slotAt r'.slots i = slotAt r.slots i) : r'.get i = r.get i := by
  refine Option.ext fun v => ?_
  rw [get_eq_some_iff, get_eq_some_iff, hbase, htip]
  exact and_congr_right fun hle => and_congr_right fun hlt => by rw [hslot hle hlt]

theorem get_reserve : r.reserve.get i = r.get i := by
  have hpos := r.capacity_pos
  have hfits := r.fits
  unfold reserve
  split
  · refine get_congr Iff.rfl Iff.rfl fun hbase htip => ?_
    exact slotAt_copyLive r (by omega) (by omega) (by omega) hbase (by omega)
  · rfl

theorem get_push : (r.push v).get i = if i = r.tip then some v else r.get i := by
  split
  · next heq =>
    have hbase := r.base_le
    rw [heq, get_eq_some_iff]
    exact ⟨hbase, Nat.lt_succ_self _, slotAt_storeAt_self r.reserve.capacity_pos⟩
  · next hne =>
    rw [← get_reserve (r := r)]
    refine get_congr (by rw [base_reserve]; rfl) ?_ fun hbase htip => ?_
    · rw [tip_reserve]
      change i < r.tip + 1 ↔ i < r.tip
      omega
    · rw [base_reserve] at hbase
      rw [tip_reserve] at htip
      have hroom := r.room_reserve
      exact slotAt_storeAt_of_ne (mod_ne_of_lt htip (by omega)).symm

theorem get_replace : (r.replace j v).get i =
    if i = j ∧ r.base ≤ j ∧ j < r.tip then some v else r.get i := by
  unfold replace
  split
  · next h => rw [if_neg (by omega)]
  · next h =>
    split
    · next heq =>
      rw [heq.1, get_eq_some_iff]
      exact ⟨heq.2.1, heq.2.2, slotAt_storeAt_self r.capacity_pos⟩
    · next hne =>
      refine get_congr Iff.rfl Iff.rfl fun hbase htip => slotAt_storeAt_of_ne ?_
      have hfits := r.fits
      match Nat.lt_or_gt_of_ne (show i ≠ j by omega) with
      | .inl hlt => exact (mod_ne_of_lt hlt (by omega)).symm
      | .inr hlt => exact mod_ne_of_lt hlt (by omega)

@[simp] theorem base_replace : (r.replace j v).base = r.base := by
  unfold replace
  split <;> rfl

@[simp] theorem tip_replace : (r.replace j v).tip = r.tip := by
  unfold replace
  split <;> rfl

theorem get_fork : r.fork.get i = r.get i := by
  have hfits := r.fits
  refine get_congr Iff.rfl Iff.rfl fun hbase htip => ?_
  exact slotAt_copyLive r r.capacity_pos (by omega) (by omega) hbase (by omega)

theorem get_pruneBelow {below : Nat} :
    (r.pruneBelow below).get i = if i < below then none else r.get i := by
  have hbase := r.base_le
  split
  · next h =>
    rw [get_eq_none_iff]
    change i < min (max below r.base) r.tip ∨ r.tip ≤ i
    omega
  · next h =>
    by_cases htip : i < r.tip
    · refine get_congr ?_ Iff.rfl fun _ _ => rfl
      change min (max below r.base) r.tip ≤ i ↔ r.base ≤ i
      omega
    · have hout := Nat.not_lt.mp htip
      rw [get_eq_none_iff.mpr (.inr hout), get_eq_none_iff (r := r.pruneBelow below)]
      exact .inr hout

end AtomicRing

end Vprogs
