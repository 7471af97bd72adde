import Vprogs.Outcome
import Mathlib.Data.List.Basic

/-!
The canonical chain as the set of its ids: which blocks have an id, and which ids
are canonical up to the tip. Finalized ids read as canonical, a whole bucket at a time.
The bit oracle that the source keeps stands for such a set as long as no id returns
behind the bucket being filled.
-/
namespace Vprogs.Scheduler

namespace Bucket

/-- Ids a bucket holds. -/
def CAPACITY : Nat := 128

/-- The bucket of an id; ids are 1-based. -/
def locate (id : Nat) : Nat := (id - 1) / CAPACITY

theorem lt_of_locate_lt {id bucket : Nat} (h : locate id < bucket) : id ≤ bucket * CAPACITY := by
  unfold locate CAPACITY at *
  omega

theorem locate_lt_of_le {id bucket : Nat} (hpos : 0 < id) (h : id ≤ bucket * CAPACITY) :
    locate id < bucket := by
  unfold locate CAPACITY at *
  omega

theorem locate_mul_lt {id : Nat} (hpos : 0 < id) : locate id * CAPACITY < id := by
  unfold locate CAPACITY
  omega

end Bucket

structure Chain where
  tip : Nat := 0
  /-- The canonical ids, none above the tip. -/
  ids : List Nat := []
  /-- The highest id allocated so far; ids are dense and never reused. -/
  seen : Nat := 0
  /-- The lowest id whose block hash is still known. -/
  base : Nat := 1
  /-- Buckets finalized so far. -/
  dropped : Nat := 0

namespace Chain

def isCanonical (c : Chain) (id : Nat) : Bool :=
  id != 0 && decide (id ≤ c.tip) && (decide (Bucket.locate id < c.dropped) || c.ids.contains id)

/-- A new block takes the next id, a returning one its old id. -/
def append (c : Chain) (id : Nat) : Option Chain :=
  if c.tip < id ∧ (id = c.seen + 1 ∨ c.base ≤ id ∧ id ≤ c.seen) then
    some { c with tip := id, ids := c.ids ++ [id], seen := max c.seen id }
  else none

def rollback (c : Chain) (newTip : Nat) : Chain :=
  { c with tip := newTip, ids := c.ids.filter fun id => decide (id ≤ newTip) }

/-- The two hot buckets are never dropped. -/
def finalize (c : Chain) (below : Nat) : Chain :=
  { c with
    base := max c.base (min below (c.seen + 1))
    dropped :=
      if 1 < below then max c.dropped (min (Bucket.locate below) (Bucket.locate c.seen - 1))
      else c.dropped }

theorem isCanonical_iff {c : Chain} {id : Nat} :
    c.isCanonical id = true ↔ 0 < id ∧ id ≤ c.tip ∧ (Bucket.locate id < c.dropped ∨ id ∈ c.ids) := by
  simp [isCanonical, Nat.pos_iff_ne_zero, and_assoc]

end Chain

end Vprogs.Scheduler
