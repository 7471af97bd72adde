import Vprogs.Runs
import Vprogs.Scheduler.Chain
import Vprogs.Storage.AtomicRing
import Vprogs.Storage.Heap

/-!
The canonical-chain oracle. One bit per id, in buckets: the tail bucket being filled
and the one before it are held by the snapshot, older ones in a ring. Snapshots share
buckets and rings with the writer by reference. An append sets a bit of the tail in
place, a rollback edits copies, and a finalization prunes the ring.
-/
namespace Vprogs.Canonical

open Scheduler

/-- A run of canonical bits. -/
structure Bucket where
  bits : BitVec Bucket.CAPACITY := 0
  deriving DecidableEq, Inhabited

namespace Bucket

export Scheduler.Bucket (CAPACITY locate)

/-- The bit of an id within its bucket. -/
def bit (id : Nat) : Nat := (id - 1) % CAPACITY

def get (b : Bucket) (bit : Nat) : Bool := b.bits.getLsbD bit

def set (b : Bucket) (bit : Nat) : Bucket := ⟨b.bits ||| BitVec.twoPow _ bit⟩

def clear (b : Bucket) (bit : Nat) : Bucket := ⟨b.bits &&& ~~~ BitVec.twoPow _ bit⟩

/-- A copy with each bit set to the value that goes with it. -/
def edited (b : Bucket) (ops : List (Nat × Bool)) : Bucket :=
  ops.foldl (fun b op => if op.2 then b.set op.1 else b.clear op.1) b

end Bucket

/-- The tail and the last sealed bucket. -/
structure HotZone where
  tailBucket : Nat
  tail : Nat
  lastSealed : Nat
  deriving DecidableEq, Inhabited

structure Snapshot where
  tip : Nat
  hotZone : HotZone
  body : Nat
  deriving DecidableEq, Inhabited

instance : Inhabited (AtomicRing Nat) := ⟨.new 0⟩

/-- What a writer does to a chain of ids or of blocks. -/
inductive Op (α : Type) where
  | append (entry : α)
  | rollback (newTip : Nat)
  | finalize (below : Nat)
  deriving DecidableEq

/-- The ids an operation finalizes. -/
def Op.bound {α : Type} : Op α → Nat
  | .finalize below => below
  | _ => 0

/-- The chain with all that its snapshots refer to. -/
structure CanonicalChain where
  buckets : Heap Bucket
  rings : Heap (AtomicRing Nat)
  snapshots : Heap Snapshot
  current : Nat

namespace CanonicalChain

/-- The empty chain. -/
def empty : CanonicalChain where
  buckets := ⟨[{}, {}]⟩
  rings := ⟨[.new 0]⟩
  snapshots := ⟨[⟨0, ⟨0, 0, 1⟩, 0⟩]⟩
  current := 0

variable (c : CanonicalChain)

def snapshot : Snapshot := c.snapshots.read c.current

def tip : Nat := c.snapshot.tip

def bucket (ref : Nat) : Bucket := c.buckets.read ref

def ring (ref : Nat) : AtomicRing Nat := c.rings.read ref

/-- What the snapshot answers now. -/
def isCanonical (s : Snapshot) (id : Nat) : Bool :=
  if id = 0 ∨ s.tip < id then false
  else if Bucket.locate id = s.hotZone.tailBucket then
    (c.bucket s.hotZone.tail).get (Bucket.bit id)
  else if 1 ≤ s.hotZone.tailBucket ∧ Bucket.locate id = s.hotZone.tailBucket - 1 then
    (c.bucket s.hotZone.lastSealed).get (Bucket.bit id)
  else
    -- an absent bucket is finalized
    match (c.ring s.body).get (Bucket.locate id) with
    | some ref => (c.bucket ref).get (Bucket.bit id)
    | none => true

def newBucket (b : Bucket) : Nat × CanonicalChain :=
  (c.buckets.size, { c with buckets := c.buckets.alloc b })

def newRing (r : AtomicRing Nat) : Nat × CanonicalChain :=
  (c.rings.size, { c with rings := c.rings.alloc r })

def setRing (ref : Nat) (r : AtomicRing Nat) : CanonicalChain :=
  { c with rings := c.rings.write ref r }

def setBit (ref bit : Nat) : CanonicalChain :=
  { c with buckets := c.buckets.write ref ((c.bucket ref).set bit) }

def publish (s : Snapshot) : CanonicalChain :=
  { c with snapshots := c.snapshots.alloc s, current := c.snapshots.size }

/-- The bucket of a number, an empty one beyond the hot zone. -/
def bucketAt (hot : HotZone) (idx : Nat) : Nat × CanonicalChain :=
  if idx = hot.tailBucket then (hot.tail, c)
  else if 1 ≤ hot.tailBucket ∧ idx = hot.tailBucket - 1 then (hot.lastSealed, c)
  else c.newBucket {}

/-- Seals the next `count` buckets into the ring. -/
def sealBehind (hot : HotZone) (body : Nat) : Nat → CanonicalChain → CanonicalChain
  | 0, c => c
  | count + 1, c =>
    let sealed := c.bucketAt hot (c.ring body).nextIndex
    sealBehind hot body count (sealed.2.setRing body ((sealed.2.ring body).push sealed.1))

/-- Advances the hot zone. With debug assertions the tail must not move back. Without them
`target - 1` wraps at bucket 0; the bucket sealed there is never read. -/
def rollForward (debug : Bool) (hot : HotZone) (target body : Nat) :
    Option (HotZone × CanonicalChain) :=
  if debug = true ∧ target < hot.tailBucket then none
  else if target = hot.tailBucket then some (hot, c)
  else
    let c := sealBehind hot body (target - 1 - (c.ring body).nextIndex) c
    let sealed := c.bucketAt hot (target - 1)
    let tail := sealed.2.newBucket {}
    some (⟨target, tail.1, sealed.1⟩, tail.2)

/-- Marks `id` canonical as the new tip; it must extend the tip. -/
def append (debug : Bool) (id : Nat) : Option CanonicalChain :=
  if c.tip < id then
    (c.rollForward debug c.snapshot.hotZone (Bucket.locate id) c.snapshot.body).map fun rolled =>
      (rolled.2.setBit rolled.1.tail (Bucket.bit id)).publish ⟨id, rolled.1, c.snapshot.body⟩
  else none

/-- The bits above the new tip, by bucket. -/
def edits (newTip tip : Nat) : List (Nat × List (Nat × Bool)) :=
  let ids := List.range' (newTip + 1) (tip - newTip)
  (ids.map Bucket.locate).dedup.map fun bucket =>
    (bucket, (ids.filter fun id => Bucket.locate id = bucket).map fun id => (Bucket.bit id, false))

def applyEdit (body : Nat) (rolled : HotZone × CanonicalChain) (edit : Nat × List (Nat × Bool)) :
    HotZone × CanonicalChain :=
  let hot := rolled.1
  let c := rolled.2
  if edit.1 = hot.tailBucket then
    let copy := c.newBucket ((c.bucket hot.tail).edited edit.2)
    ({ hot with tail := copy.1 }, copy.2)
  else if 1 ≤ hot.tailBucket ∧ edit.1 = hot.tailBucket - 1 then
    let copy := c.newBucket ((c.bucket hot.lastSealed).edited edit.2)
    ({ hot with lastSealed := copy.1 }, copy.2)
  else
    -- edits of pruned buckets drop
    match (c.ring body).get edit.1 with
    | some sealed =>
      let copy := c.newBucket ((c.bucket sealed).edited edit.2)
      (hot, copy.2.setRing body ((copy.2.ring body).replace edit.1 copy.1))
    | none => (hot, c)

/-- Rolls back to `newTip`, which must not exceed the tip. The ring is forked by a
rollback behind the hot zone. -/
def rollback (debug : Bool) (newTip : Nat) : Option CanonicalChain :=
  if newTip ≤ c.tip then
    let cur := c.snapshot
    let body :=
      if Bucket.locate (newTip + 1) + 2 ≤ cur.hotZone.tailBucket then c.newRing (c.ring cur.body).fork
      else (cur.body, c)
    (body.2.rollForward debug cur.hotZone cur.hotZone.tailBucket body.1).map fun rolled =>
      let edited := (edits newTip cur.tip).foldl (applyEdit body.1) rolled
      edited.2.publish ⟨newTip, edited.1, body.1⟩
  else none

/-- Ids below `below` read as canonical from now on, a bucket at a time. -/
def finalize (below : Nat) : CanonicalChain :=
  if 1 < below then
    c.setRing c.snapshot.body ((c.ring c.snapshot.body).pruneBelow (Bucket.locate below))
  else c

def step (debug : Bool) (c : CanonicalChain) : Op Nat → Option CanonicalChain
  | .append id => c.append debug id
  | .rollback newTip => c.rollback debug newTip
  | .finalize below => some (c.finalize below)

end CanonicalChain

end Vprogs.Canonical
