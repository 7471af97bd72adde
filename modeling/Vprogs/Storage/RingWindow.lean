import Vprogs.Runs
import Mathlib.Algebra.Group.Nat.Defs
import Vprogs.Storage.AtomicRing
import Mathlib.Data.List.Forall2

/-!
The ring as it runs, on 64-bit indices that wrap, and the window it stands for: a partial
map whose domain is the live range. While no entry is pushed at the last index, every
operation of the ring is the window's operation, and a forked ring is a window of its own.
-/
namespace Vprogs

variable {V : Type}

/-! ### Windows -/

/-- A partial map on a contiguous range of indices. -/
structure Window (V : Type) where
  base : Nat
  next : Nat
  value : Nat → Option V
  base_le : base ≤ next
  live : ∀ i, (value i).isSome ↔ base ≤ i ∧ i < next

namespace Window

/-- No entry, the next one to be added at the given index. -/
def empty (base : Nat) : Window V where
  base := base
  next := base
  value _ := none
  base_le := Nat.le_refl _
  live i := by
    simp only [Option.isSome_none, Bool.false_eq_true, false_iff]
    omega

variable (w : Window V)

def push (v : V) : Window V where
  base := w.base
  next := w.next + 1
  value i := if i = w.next then some v else w.value i
  base_le := Nat.le_succ_of_le w.base_le
  live i := by
    have hbase := w.base_le
    split
    · simp only [Option.isSome_some, true_iff]
      omega
    · rw [w.live]
      omega

/-- Changes the value of a live index, and nothing else. -/
def replace (index : Nat) (v : V) : Window V where
  base := w.base
  next := w.next
  value i := if i = index ∧ w.base ≤ index ∧ index < w.next then some v else w.value i
  base_le := w.base_le
  live i := by
    split
    · simp only [Option.isSome_some, true_iff]
      omega
    · exact w.live i

/-- Removes the indices from `start` on. -/
def truncateFrom (start : Nat) : Window V where
  base := w.base
  next := min (max start w.base) w.next
  value i := if start ≤ i then none else w.value i
  base_le := by
    have hbase := w.base_le
    omega
  live i := by
    have hbase := w.base_le
    split
    · simp only [Option.isSome_none, Bool.false_eq_true, false_iff]
      omega
    · rw [w.live]
      omega

/-- Removes the indices below `below`. -/
def pruneBelow (below : Nat) : Window V where
  base := min (max below w.base) w.next
  next := w.next
  value i := if i < below then none else w.value i
  base_le := Nat.min_le_right _ _
  live i := by
    have hbase := w.base_le
    split
    · simp only [Option.isSome_none, Bool.false_eq_true, false_iff]
      omega
    · rw [w.live]
      omega

@[ext] theorem ext {w w' : Window V} (hbase : w.base = w'.base) (hnext : w.next = w'.next)
    (hvalue : ∀ i, w.value i = w'.value i) : w = w' := by
  cases w
  cases w'
  cases hbase
  cases hnext
  cases (funext hvalue : _ = _)
  rfl

end Window

/-! ### The ring over unbounded indices is a window -/

namespace AtomicRing

variable (r : AtomicRing V)

/-- What the ring's reads show. -/
def window : Window V where
  base := r.base
  next := r.tip
  value := r.get
  base_le := r.base_le
  live i := by
    have hnone := get_eq_none_iff (r := r) (i := i)
    rw [← Option.not_isNone, Bool.not_eq_true', ← Bool.not_eq_true, Option.isNone_iff_eq_none, hnone]
    omega

theorem get_truncateFrom {start i : Nat} :
    (r.truncateFrom start).get i = if start ≤ i then none else r.get i := by
  have hbase := r.base_le
  split
  · rw [get_eq_none_iff]
    change i < r.base ∨ min (max start r.base) r.tip ≤ i
    omega
  · by_cases hlow : i < r.base
    · rw [get_eq_none_iff.mpr (.inl hlow), get_eq_none_iff (r := r.truncateFrom start)]
      exact .inl hlow
    · refine get_congr Iff.rfl ?_ fun _ _ => rfl
      change i < min (max start r.base) r.tip ↔ i < r.tip
      omega

theorem window_push (v : V) : (r.push v).window = r.window.push v :=
  Window.ext rfl rfl fun _ => get_push

theorem window_replace (index : Nat) (v : V) : (r.replace index v).window = r.window.replace index v :=
  Window.ext base_replace tip_replace fun _ => get_replace

theorem window_truncateFrom (start : Nat) : (r.truncateFrom start).window = r.window.truncateFrom start :=
  Window.ext rfl rfl fun _ => r.get_truncateFrom

theorem window_pruneBelow (below : Nat) : (r.pruneBelow below).window = r.window.pruneBelow below :=
  Window.ext rfl rfl fun _ => get_pruneBelow

theorem window_fork : r.fork.window = r.window :=
  Window.ext rfl rfl fun _ => get_fork

end AtomicRing

/-! ### The ring over 64-bit indices -/

/-- The ring's fields as stored: atomics hold 64-bit words, slots the words they were
stored under. -/
structure WordRing (V : Type) where
  base : UInt64
  tip : UInt64
  slots : List (Option (UInt64 × V))

namespace WordRing

def slot (slots : List (Option (UInt64 × V))) (index : UInt64) : Option (UInt64 × V) :=
  slots[index.toNat % slots.length]?.join

def setSlot (slots : List (Option (UInt64 × V))) (entry : UInt64 × V) : List (Option (UInt64 × V)) :=
  slots.set (entry.1.toNat % slots.length) (some entry)

/-- Empty slots; there has to be one. -/
def withCapacity (base : UInt64) (capacity : Nat) : Option (WordRing V) :=
  if capacity = 0 then none else some ⟨base, base, List.replicate capacity none⟩

variable (r : WordRing V)

def nextIndex : UInt64 := r.tip

def withValue {R : Type} (index : UInt64) (read : V → R) : Option R :=
  if index < r.base ∨ r.nextIndex ≤ index then none
  else match slot r.slots index with
    | some (i, v) => if i = index then some (read v) else none
    | none => none

def get (index : UInt64) : Option V := r.withValue index fun v => v

/-- The loop over the first `count` live indices that places their entries into empty slots. -/
def copyLive (capacity : Nat) : Nat → List (Option (UInt64 × V))
  | 0 => List.replicate capacity none
  | count + 1 =>
    let index := r.base + UInt64.ofNat count
    match slot r.slots index with
    | some (i, v) =>
      if i = index then setSlot (copyLive capacity count) (i, v) else copyLive capacity count
    | none => copyLive capacity count

def grow : WordRing V :=
  { r with slots := r.copyLive (r.slots.length * 2) (r.tip.toNat - r.base.toNat) }

/-- Grows and tries again while the next index would wrap onto a live entry; 64 doublings
pass any distance of two words. -/
def pushLoop (value : V) : Nat → WordRing V → UInt64 × WordRing V
  | 0, r => (r.tip, { r with slots := setSlot r.slots (r.tip, value), tip := r.tip + 1 })
  | growths + 1, r =>
    if r.slots.length ≤ (r.tip - r.base).toNat then pushLoop value growths r.grow
    else (r.tip, { r with slots := setSlot r.slots (r.tip, value), tip := r.tip + 1 })

/-- The assigned index, and the ring after it. -/
def push (value : V) : UInt64 × WordRing V := pushLoop value 64 r

def replace (index : UInt64) (value : V) : WordRing V :=
  if index < r.base ∨ r.nextIndex ≤ index then r
  else { r with slots := setSlot r.slots (index, value) }

def fork : WordRing V :=
  { r with slots := r.copyLive r.slots.length (r.tip.toNat - r.base.toNat) }

def truncateFrom (start : UInt64) : WordRing V :=
  { r with tip := min (max start r.base) r.tip }

def pruneBelow (below : UInt64) : WordRing V :=
  { r with base := min (max below r.base) r.tip }

/-! ### Words against unbounded indices -/

/-- A slot with its word read as a number. -/
def unword (entry : UInt64 × V) : Nat × V := (entry.1.toNat, entry.2)

def unwordSlots (slots : List (Option (UInt64 × V))) : List (Option (Nat × V)) :=
  slots.map (Option.map unword)

theorem slotAt_unwordSlots (slots : List (Option (UInt64 × V))) (index : UInt64) :
    slotAt (unwordSlots slots) index.toNat = (slot slots index).map unword := by
  rw [slotAt, slot, unwordSlots, List.length_map, List.getElem?_map]
  cases slots[index.toNat % slots.length]? <;> rfl

theorem unwordSlots_setSlot (slots : List (Option (UInt64 × V))) (index : UInt64) (v : V) :
    unwordSlots (setSlot slots (index, v)) = storeAt (unwordSlots slots) index.toNat v := by
  rw [setSlot, storeAt, unwordSlots, List.map_set, unwordSlots, List.length_map]
  rfl

theorem toNat_min (a b : UInt64) : (min a b).toNat = min a.toNat b.toNat := by
  change (if a ≤ b then a else b).toNat = _
  split
  · next h => exact (Nat.min_eq_left h).symm
  · next h => exact (Nat.min_eq_right (Nat.le_of_lt (UInt64.not_le.mp h))).symm

theorem toNat_max (a b : UInt64) : (max a b).toNat = max a.toNat b.toNat := by
  change (if a ≤ b then b else a).toNat = _
  split
  · next h => exact (Nat.max_eq_right h).symm
  · next h => exact (Nat.max_eq_left (Nat.le_of_lt (UInt64.not_le.mp h))).symm

/-- The word ring holds the words of a ring over unbounded indices. -/
structure Holds (w : WordRing V) (r : AtomicRing V) : Prop where
  base : w.base.toNat = r.base
  tip : w.tip.toNat = r.tip
  slots : unwordSlots w.slots = r.slots

namespace Holds

variable {w : WordRing V} {r : AtomicRing V}

theorem length_slots (h : Holds w r) : w.slots.length = r.slots.length := by
  rw [← h.slots, unwordSlots, List.length_map]

theorem outside_iff (h : Holds w r) (index : UInt64) :
    index < w.base ∨ w.nextIndex ≤ index ↔ index.toNat < r.base ∨ r.tip ≤ index.toNat := by
  rw [← h.base, ← h.tip]
  exact Iff.rfl

theorem get (h : Holds w r) (index : UInt64) : w.get index = r.get index.toNat := by
  rw [WordRing.get, withValue, AtomicRing.get, ← h.slots, slotAt_unwordSlots]
  simp only [h.outside_iff]
  cases slot w.slots index with
  | none => rfl
  | some entry =>
    have hword : (unword entry).1 = index.toNat ↔ entry.1 = index := UInt64.toNat_inj
    simp only [Option.map_some, hword]
    rfl

theorem withValue_eq (h : Holds w r) {R : Type} (index : UInt64) (read : V → R) :
    w.withValue index read = (r.get index.toNat).map read := by
  rw [← h.get, WordRing.get, withValue, withValue]
  split
  · rfl
  · cases slot w.slots index with
    | none => rfl
    | some entry =>
      dsimp only
      split <;> rfl

theorem withCapacity (base : UInt64) {capacity : Nat} (hpos : 0 < capacity) :
    ∃ (w : WordRing V) (r : AtomicRing V), WordRing.withCapacity base capacity = some w ∧ Holds w r ∧
      r.window = Window.empty base.toNat := by
  let r : AtomicRing V :=
    { base := base.toNat
      tip := base.toNat
      slots := List.replicate capacity none
      base_le := Nat.le_refl _
      capacity_pos := by rwa [List.length_replicate]
      fits := Nat.le_add_right _ _
      live := fun i hbase htip => by omega }
  refine ⟨_, r, if_neg (by omega), ⟨rfl, rfl, ?_⟩, Window.ext rfl rfl fun i => ?_⟩
  · rw [unwordSlots, List.map_replicate]
    rfl
  · refine AtomicRing.get_eq_none_iff.mpr ?_
    change i < base.toNat ∨ base.toNat ≤ i
    omega

theorem copyLive (h : Holds w r) {capacity count : Nat} (hcount : r.base + count ≤ r.tip) :
    unwordSlots (w.copyLive capacity count) = r.copyLive capacity count := by
  induction count with
  | zero =>
    rw [WordRing.copyLive, AtomicRing.copyLive, unwordSlots, List.map_replicate]
    rfl
  | succ count ih =>
    have hlt := w.tip.toNat_lt
    have hindex : (w.base + UInt64.ofNat count).toNat = r.base + count := by
      rw [UInt64.toNat_add, UInt64.toNat_ofNat', h.base, h.tip] at *
      omega
    rw [WordRing.copyLive, AtomicRing.copyLive, ← hindex, ← h.slots, slotAt_unwordSlots]
    cases slot w.slots (w.base + UInt64.ofNat count) with
    | none => exact ih (by omega)
    | some entry =>
      have hword : (unword entry).1 = (w.base + UInt64.ofNat count).toNat ↔
          entry.1 = w.base + UInt64.ofNat count := UInt64.toNat_inj
      simp only [Option.map_some, hword]
      split
      · rw [unwordSlots_setSlot, ih (by omega)]
        rfl
      · exact ih (by omega)

theorem distance (h : Holds w r) : (w.tip - w.base).toNat = r.tip - r.base := by
  have hle := r.base_le
  rw [UInt64.toNat_sub_of_le _ _ (by rw [UInt64.le_iff_toNat_le, h.base, h.tip]; exact hle), h.base,
    h.tip]

theorem grow (h : Holds w r) : Holds w.grow r.grow where
  base := h.base
  tip := h.tip
  slots := by
    have hle := r.base_le
    rw [WordRing.grow, h.length_slots, h.base, h.tip]
    exact h.copyLive (by omega)

theorem fork (h : Holds w r) : Holds w.fork r.fork where
  base := h.base
  tip := h.tip
  slots := by
    have hle := r.base_le
    rw [WordRing.fork, h.length_slots, h.base, h.tip]
    exact h.copyLive (by omega)

theorem replace (h : Holds w r) (index : UInt64) (v : V) :
    Holds (w.replace index v) (r.replace index.toNat v) := by
  unfold WordRing.replace AtomicRing.replace
  split
  · next hout => rw [dif_pos ((h.outside_iff index).mp hout)]; exact h
  · next hin =>
    rw [dif_neg fun hout => hin ((h.outside_iff index).mpr hout)]
    exact ⟨h.base, h.tip, by rw [unwordSlots_setSlot, h.slots]⟩

theorem truncateFrom (h : Holds w r) (start : UInt64) :
    Holds (w.truncateFrom start) (r.truncateFrom start.toNat) where
  base := h.base
  tip := by
    rw [WordRing.truncateFrom, toNat_min, toNat_max, h.base, h.tip]
    rfl
  slots := h.slots

theorem pruneBelow (h : Holds w r) (below : UInt64) :
    Holds (w.pruneBelow below) (r.pruneBelow below.toNat) where
  base := by
    rw [WordRing.pruneBelow, toNat_min, toNat_max, h.base, h.tip]
    rfl
  tip := h.tip
  slots := h.slots

/-- With room for it, the value goes into the slot of the next index. -/
theorem store (h : Holds w r) (hroom : r.tip < r.base + r.slots.length) (hlast : w.tip.toNat + 1 < 2 ^ 64)
    (v : V) : Holds { w with slots := setSlot w.slots (w.tip, v), tip := w.tip + 1 } (r.push v) where
  base := h.base
  tip := by
    change (w.tip + 1).toNat = r.tip + 1
    rw [UInt64.toNat_add, ← h.tip]
    exact Nat.mod_eq_of_lt hlast
  slots := by
    change unwordSlots (setSlot w.slots (w.tip, v)) = storeAt r.reserve.slots r.tip v
    rw [AtomicRing.reserve, if_neg (by omega), unwordSlots_setSlot, h.slots, h.tip]

/-- One growth makes room, since the live range never exceeds the slots. -/
theorem push (h : Holds w r) (hlast : w.tip.toNat + 1 < 2 ^ 64) (v : V) :
    (w.push v).1 = w.nextIndex ∧ Holds (w.push v).2 (r.push v) := by
  have hfits := r.fits
  have hpos := r.capacity_pos
  have hle := r.base_le
  have hgrown : r.grow.slots.length = r.slots.length * 2 := r.length_copyLive _ _
  rw [WordRing.push, pushLoop, h.distance, h.length_slots]
  split
  · next hfull =>
    rw [pushLoop, h.grow.distance, h.grow.length_slots]
    have hroom : r.grow.tip < r.grow.base + r.grow.slots.length := by
      change r.tip < r.base + _
      omega
    rw [if_neg (show ¬ r.grow.slots.length ≤ r.grow.tip - r.grow.base by
      change ¬ _ ≤ r.tip - r.base
      omega)]
    have hstored := h.grow.store hroom hlast v
    have hreserve : r.reserve = r.grow.reserve := by
      rw [AtomicRing.reserve, if_pos (by omega), AtomicRing.reserve, if_neg (by omega)]
    refine ⟨rfl, hstored.base, hstored.tip, hstored.slots.trans ?_⟩
    change storeAt r.grow.reserve.slots r.tip v = storeAt r.reserve.slots r.tip v
    rw [hreserve]
  · next hroom => exact ⟨rfl, h.store (by omega) hlast v⟩

end Holds

end WordRing

/-! ### Rings and their forks -/

/-- What the writer of one ring does. -/
inductive RingOp (V : Type) where
  | push (value : V)
  | replace (index : UInt64) (value : V)
  | truncateFrom (start : UInt64)
  | pruneBelow (below : UInt64)

def WordRing.apply (r : WordRing V) : RingOp V → WordRing V
  | .push value => (r.push value).2
  | .replace index value => r.replace index value
  | .truncateFrom start => r.truncateFrom start
  | .pruneBelow below => r.pruneBelow below

def Window.apply (w : Window V) : RingOp V → Window V
  | .push value => w.push value
  | .replace index value => w.replace index.toNat value
  | .truncateFrom start => w.truncateFrom start.toNat
  | .pruneBelow below => w.pruneBelow below.toNat

/-- A ring and its forks, numbered in the order they came to be: one of them is operated
on, or forked once more. -/
inductive FamilyOp (V : Type) where
  | act (ring : Nat) (op : RingOp V)
  | fork (ring : Nat)

/-- Each member is a value of its own: an operation changes the member it is for. -/
def FamilyOp.step {R : Type} (apply : R → RingOp V → R) (fork : R → R) (family : List R) :
    FamilyOp V → Option (List R)
  | .act ring op => family[ring]?.map fun r => family.set ring (apply r op)
  | .fork ring => family[ring]?.map fun r => family ++ [fork r]

def stepRings : List (WordRing V) → FamilyOp V → Option (List (WordRing V)) :=
  FamilyOp.step WordRing.apply WordRing.fork

/-- The forked window is the same map. -/
def stepWindows : List (Window V) → FamilyOp V → Option (List (Window V)) :=
  FamilyOp.step Window.apply id

/-- `u64::MAX`. -/
def LAST_INDEX : UInt64 := 0xffffffffffffffff

/-- No value is pushed at the last index there is. -/
def HasNext (family : List (WordRing V)) : FamilyOp V → Prop
  | .act ring (.push _) => ∀ r ∈ family[ring]?, r.nextIndex ≠ LAST_INDEX
  | _ => True

instance (family : List (WordRing V)) : DecidablePred (HasNext family)
  | .act ring (.push _) => inferInstanceAs (Decidable (∀ r ∈ family[ring]?, r.nextIndex ≠ LAST_INDEX))
  | .act _ (.replace _ _) | .act _ (.truncateFrom _) | .act _ (.pruneBelow _) | .fork _ =>
    inferInstanceAs (Decidable True)

/-- The ring's live range and all its reads are the window's. -/
structure Shows (r : WordRing V) (w : Window V) : Prop where
  base : r.base.toNat = w.base
  nextIndex : r.nextIndex.toNat = w.next
  get : ∀ index, r.get index = w.value index.toNat
  withValue : ∀ (R : Type) (index : UInt64) (read : V → R),
    r.withValue index read = (w.value index.toNat).map read

/-- The ring holds some ring over unbounded indices, whose window it is. -/
def Stands (r : WordRing V) (w : Window V) : Prop := ∃ ring, WordRing.Holds r ring ∧ ring.window = w

theorem Stands.shows {r : WordRing V} {w : Window V} (h : Stands r w) : Shows r w := by
  have ⟨ring, hholds, hwindow⟩ := h
  subst hwindow
  exact ⟨hholds.base, hholds.tip, hholds.get, fun _ index read => hholds.withValue_eq index read⟩

theorem Stands.fork {r : WordRing V} {w : Window V} (h : Stands r w) : Stands r.fork w := by
  have ⟨ring, hholds, hwindow⟩ := h
  exact ⟨ring.fork, hholds.fork, ring.window_fork.trans hwindow⟩

theorem Stands.apply {r : WordRing V} {w : Window V} (h : Stands r w) {op : RingOp V}
    (hnext : ∀ value, op = .push value → r.nextIndex ≠ LAST_INDEX) : Stands (r.apply op) (w.apply op) := by
  have ⟨ring, hholds, hwindow⟩ := h
  subst hwindow
  cases op with
  | push value =>
    have hlast : r.tip.toNat + 1 < 2 ^ 64 := by
      have hlt := r.tip.toNat_lt
      have hne : r.tip.toNat ≠ 2 ^ 64 - 1 := fun heq =>
        hnext value rfl (UInt64.toNat_inj.mp (heq.trans (by decide)))
      omega
    exact ⟨_, (hholds.push hlast value).2, ring.window_push value⟩
  | replace index value => exact ⟨_, hholds.replace index value, ring.window_replace _ value⟩
  | truncateFrom start => exact ⟨_, hholds.truncateFrom start, ring.window_truncateFrom _⟩
  | pruneBelow below => exact ⟨_, hholds.pruneBelow below, ring.window_pruneBelow _⟩

section

variable {α β : Type} {R : α → β → Prop} {xs : List α} {ys : List β} {i : Nat} {x : α} {y : β}

theorem exists_getElem?_of_forall₂ (h : List.Forall₂ R xs ys) (hx : xs[i]? = some x) :
    ∃ y, ys[i]? = some y ∧ R x y := by
  induction h generalizing i with
  | nil => cases hx
  | cons hr _ ih =>
    cases i with
    | zero =>
      cases hx
      exact ⟨_, rfl, hr⟩
    | succ i => exact ih hx

theorem forall₂_set (h : List.Forall₂ R xs ys) (hr : R x y) : List.Forall₂ R (xs.set i x) (ys.set i y) := by
  induction h generalizing i with
  | nil => exact .nil
  | cons hhead htail ih =>
    cases i with
    | zero => exact .cons hr htail
    | succ i => exact .cons hhead ih

end

/-- One operation on a family, and on the family of its windows. -/
theorem stepWindows_of_stepRings {rings rings' : List (WordRing V)} {windows : List (Window V)}
    {op : FamilyOp V} (h : List.Forall₂ Stands rings windows) (hnext : HasNext rings op)
    (hstep : stepRings rings op = some rings') :
    ∃ windows', stepWindows windows op = some windows' ∧ List.Forall₂ Stands rings' windows' := by
  cases op with
  | act ring op =>
    have ⟨r, hr, hset⟩ := Option.map_eq_some_iff.mp hstep
    have ⟨w, hw, hstands⟩ := exists_getElem?_of_forall₂ h hr
    subst hset
    refine ⟨_, Option.map_eq_some_iff.mpr ⟨w, hw, rfl⟩, forall₂_set h (hstands.apply ?_)⟩
    intro value heq
    subst heq
    exact hnext r hr
  | fork ring =>
    have ⟨r, hr, hset⟩ := Option.map_eq_some_iff.mp hstep
    have ⟨w, hw, hstands⟩ := exists_getElem?_of_forall₂ h hr
    subst hset
    exact ⟨_, Option.map_eq_some_iff.mpr ⟨w, hw, rfl⟩,
      List.rel_append h (.cons hstands.fork .nil)⟩

/-- From any base and any capacity but zero, and while no value is pushed at the last
index, every ring of the family shows exactly its window, through wrap-around, growth and
forks. -/
theorem rings_refine_windows (base : UInt64) (capacity : Nat) (hpos : 0 < capacity) :
    ∃ start : WordRing V, WordRing.withCapacity base capacity = some start ∧
      ∀ (ops : List (FamilyOp V)) (rings : List (WordRing V)),
        Runs.Along stepRings HasNext [start] ops → Runs.run stepRings [start] ops = some rings →
        ∃ windows, Runs.run stepWindows [Window.empty base.toNat] ops = some windows ∧
          List.Forall₂ Shows rings windows := by
  have ⟨start, ring, hstart, hholds, hempty⟩ := WordRing.Holds.withCapacity (V := V) base hpos
  refine ⟨start, hstart, fun ops rings halong hrun => ?_⟩
  have hfirst : List.Forall₂ Stands [start] [Window.empty base.toNat] :=
    .cons ⟨ring, hholds, hempty⟩ .nil
  have ⟨windows, hwindows, hstands⟩ := Runs.simulation stepWindows_of_stepRings hfirst halong hrun
  exact ⟨windows, hwindows, hstands.imp fun _ _ h => h.shows⟩

/-- Two slots for three values, with a fork between the pushes and a pruned entry. -/
theorem rings_refine_windows_three : ∃ start : WordRing Nat, WordRing.withCapacity 5 2 = some start ∧
    ∃ rings windows,
      Runs.run stepRings [start] [.act 0 (.push 10), .act 0 (.push 11), .fork 0, .act 0 (.push 12),
        .act 1 (.pruneBelow 6), .act 1 (.replace 6 13)] = some rings ∧
      Runs.run stepWindows [Window.empty 5] [.act 0 (.push 10), .act 0 (.push 11), .fork 0,
        .act 0 (.push 12), .act 1 (.pruneBelow 6), .act 1 (.replace 6 13)] = some windows ∧
      List.Forall₂ Shows rings windows := by
  have ⟨start, hstart, hrefines⟩ := rings_refine_windows (V := Nat) 5 2 (by decide)
  refine ⟨start, hstart, ?_⟩
  cases hstart
  have halong : Runs.Along stepRings HasNext [WordRing.mk (V := Nat) 5 5 [none, none]]
      [.act 0 (.push 10), .act 0 (.push 11), .fork 0, .act 0 (.push 12), .act 1 (.pruneBelow 6),
        .act 1 (.replace 6 13)] := by decide +kernel
  have ⟨windows, hwindows, hshows⟩ := hrefines _ _ halong rfl
  exact ⟨_, windows, rfl, hwindows, hshows⟩

/-- At the last index the tip wraps to zero and the pushed value is out of the live range. -/
theorem rings_differ_at_last_index : ∃ (start : WordRing Nat) (rings windows : _),
    WordRing.withCapacity LAST_INDEX 1 = some start ∧
      Runs.run stepRings [start] [.act 0 (.push 7)] = some rings ∧
      Runs.run stepWindows [Window.empty LAST_INDEX.toNat] [.act 0 (.push 7)] = some windows ∧
      ¬ List.Forall₂ Shows rings windows := by
  refine ⟨_, _, _, rfl, rfl, rfl, fun h => ?_⟩
  have hget := (List.forall₂_cons.mp h).1.get LAST_INDEX
  have hnone : ((WordRing.mk (V := Nat) LAST_INDEX LAST_INDEX [none]).apply (.push 7)).get LAST_INDEX =
      none := by decide +kernel
  have hsome : ((Window.empty (V := Nat) LAST_INDEX.toNat).apply (.push 7)).value LAST_INDEX.toNat =
      some 7 := by simp [Window.apply, Window.push, Window.empty]
  rw [hsome] at hget
  cases hnone.symm.trans hget

end Vprogs
