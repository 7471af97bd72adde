import Vprogs.Canonical.Manager

/-!
Reopening a chain. The manager replays the stored metadata into its log, walks the
ancestry of the last entry and rebuilds the oracle from it.
-/
namespace Vprogs.Canonical

namespace CanonicalChain

variable (c : CanonicalChain)

/-- Sets the bits of the canonical ids in the buckets from `baseBucket` on. -/
def setBits (baseBucket : Nat) (canonical : List Nat) (buckets : List Bucket) : List Bucket :=
  canonical.foldl
    (fun buckets id => buckets.modify (Bucket.locate id - baseBucket) fun b => b.set (Bucket.bit id)) buckets

/-- Pushes the buckets onto the ring. -/
def pushAll (body : Nat) : List Bucket → CanonicalChain → CanonicalChain
  | [], c => c
  | bucket :: buckets, c =>
    let sealed := c.newBucket bucket
    pushAll body buckets (sealed.2.setRing body ((sealed.2.ring body).push sealed.1))

/-- Rebuilds the layout of the ids from `base` to `tip`. A canonical id outside of
their buckets is out of bounds. -/
def restore (base tip : Nat) (canonical : List Nat) : Option CanonicalChain :=
  let baseBucket := Bucket.locate base
  let tailBucket := Bucket.locate tip
  if tip = 0 then some c
  else if canonical.all fun id => decide (baseBucket ≤ Bucket.locate id ∧ Bucket.locate id ≤ tailBucket) then
    let buckets := setBits baseBucket canonical (List.replicate (tailBucket - baseBucket + 1) {})
    let tail := c.newBucket (buckets.getLastD {})
    let lastSealed := tail.2.newBucket (buckets.dropLast.getLastD {})
    let body := lastSealed.2.newRing (.new baseBucket)
    some ((pushAll body.1 buckets.dropLast.dropLast body.2).publish
      ⟨tip, ⟨tailBucket, tail.1, lastSealed.1⟩, body.1⟩)
  else none

end CanonicalChain

namespace CanonicalChainManager

open BatchMetadata

variable {C M : Type} [BatchMetadata M]

/-- Pushes stored entries onto the log; the first one sets the base. With debug
assertions their ids must be consecutive. -/
def replay (debug : Bool) : CanonicalChainManager C M → List (Nat × M) → Option (CanonicalChainManager C M)
  | m, [] => some m
  | m, (id, metadata) :: entries =>
    let m := if m.entries.isEmpty then { m with base := id } else m
    let pushed := m.push metadata
    if debug = true ∧ pushed.1 ≠ id then none else replay debug pushed.2 entries

/-- The ids from `id` down over the parents; the walk descends, so `id + 1` steps are
enough. -/
def ancestry (m : CanonicalChainManager C M) : Nat → Nat → Option (List Nat)
  | 0, _ => none
  | steps + 1, id =>
    (m.metadata id).bind fun metadata =>
      let parent := parentId metadata
      if parent < m.base ∨ id ≤ parent then some [id]
      else (m.ancestry steps parent).map (id :: ·)

def canonicalAncestry (m : CanonicalChainManager C M) (tip : Nat) : Option (List Nat) :=
  m.ancestry (tip + 1) tip

/-- Replays stored entries in order, the last of which becomes the tip. -/
def new (debug : Bool) (chain : CanonicalChain) (entries : List (Nat × M)) :
    Option (CanonicalChainManager CanonicalChain M) :=
  (replay debug { chain := chain } entries).bind fun m =>
    match entries.getLast? with
    | none => some m
    | some (tip, _) =>
      (m.canonicalAncestry tip).bind fun canonical =>
        (m.chain.restore m.base tip canonical).map fun chain => { m with chain := chain }

end CanonicalChainManager

/-! ### The rebuilt oracle -/

namespace CanonicalChain

variable {c : CanonicalChain}

theorem length_setBits (baseBucket : Nat) (canonical : List Nat) (buckets : List Bucket) :
    (setBits baseBucket canonical buckets).length = buckets.length := by
  induction canonical generalizing buckets with
  | nil => rfl
  | cons id canonical ih => exact (ih _).trans (List.length_modify _ _ _)

theorem setBits_get (baseBucket : Nat) (canonical : List Nat) {buckets : List Bucket} {k : Nat} {b : Bucket}
    (hb : buckets[k]? = some b) :
    ∃ b', (setBits baseBucket canonical buckets)[k]? = some b' ∧ ∀ j < Bucket.CAPACITY,
      b'.get j = true ↔ b.get j = true ∨
        ∃ id ∈ canonical, Bucket.locate id - baseBucket = k ∧ Bucket.bit id = j := by
  induction canonical generalizing buckets b with
  | nil => exact ⟨b, hb, fun j _ => ⟨.inl, fun h => h.elim id fun ⟨_, hmem, _⟩ => by cases hmem⟩⟩
  | cons id canonical ih =>
    have hstep : (buckets.modify (Bucket.locate id - baseBucket) fun b => b.set (Bucket.bit id))[k]? =
        some (if Bucket.locate id - baseBucket = k then b.set (Bucket.bit id) else b) := by
      rw [List.getElem?_modify, hb]
      rfl
    have ⟨b', hb', hbits⟩ := ih hstep
    refine ⟨b', hb', fun j hj => (hbits j hj).trans ?_⟩
    have hset : (if Bucket.locate id - baseBucket = k then b.set (Bucket.bit id) else b).get j = true ↔
        b.get j = true ∨ (Bucket.locate id - baseBucket = k ∧ Bucket.bit id = j) := by
      split
      · next heq => rw [Bucket.get_set hj, Bool.or_eq_true, decide_eq_true_eq, and_iff_right heq]
      · next hne => exact (or_iff_left fun h => hne h.1).symm
    rw [hset, or_assoc]
    refine or_congr_right ?_
    simp only [List.mem_cons, exists_eq_or_imp]

theorem pushAll_spec {body : Nat} (buckets : List Bucket) (hbody : body < c.rings.size) :
    Grows c (pushAll body buckets c) ∧ ∀ k b, buckets[k]? = some b →
      ∃ ref, ((pushAll body buckets c).ring body).get ((c.ring body).tip + k) = some ref ∧
        (pushAll body buckets c).bucket ref = b := by
  induction buckets generalizing c with
  | nil => exact ⟨.refl c, fun k b hb => by cases hb⟩
  | cons bucket buckets ih =>
    have hnew := Grows.newBucket c bucket
    have hpush := Grows.push (c.newBucket bucket).2 hbody (c.newBucket bucket).1
    rw [pushAll]
    generalize hc : ((c.newBucket bucket).2.setRing body
      (((c.newBucket bucket).2.ring body).push (c.newBucket bucket).1)) = c1 at *
    have hring : c1.ring body = (c.ring body).push c.buckets.size := by
      rw [← hc]
      exact Heap.read_write_self hbody
    have hbucket : c1.bucket c.buckets.size = bucket := by
      rw [← hc]
      exact Heap.read_alloc_self
    have hsize : c.buckets.size < c1.buckets.size := by
      rw [← hc]
      exact Nat.lt_of_lt_of_eq (Nat.lt_succ_self _) Heap.size_alloc.symm
    have hbody1 : body < c1.rings.size := Nat.lt_of_lt_of_le hbody hpush.rings
    have ⟨hgrows, hget⟩ := ih hbody1
    refine ⟨hnew.trans (hpush.trans hgrows), fun k b hb => ?_⟩
    cases k with
    | zero =>
      have heq : bucket = b := Option.some.inj hb
      refine ⟨c.buckets.size, ?_, (hgrows.bucket _ hsize).trans (hbucket.trans heq)⟩
      have htip : (c.ring body).tip + 0 < (c1.ring body).tip := by
        rw [hring]
        exact Nat.lt_succ_self _
      rw [hgrows.get body hbody1 _ htip, hring, AtomicRing.get_push, if_pos (Nat.add_zero _)]
    | succ k =>
      have ⟨ref, href, hcontent⟩ := hget k b hb
      refine ⟨ref, ?_, hcontent⟩
      rw [← href, hring]
      congr 1
      change _ = (c.ring body).tip + 1 + k
      omega

/-- The bits of a rebuilt bucket. -/
theorem setBits_replicate {base count : Nat} {canonical : List Nat} (hbase : 0 < base)
    (hcanonical : ∀ id ∈ canonical, base ≤ id) {k : Nat} (hk : k < count) :
    ∃ b, (setBits (Bucket.locate base) canonical (List.replicate count {}))[k]? = some b ∧
      ∀ id, base ≤ id → Bucket.locate id = Bucket.locate base + k →
        b.get (Bucket.bit id) = decide (id ∈ canonical) := by
  have hfresh : (List.replicate count ({} : Bucket))[k]? = some {} := by
    rw [List.getElem?_replicate, if_pos hk]
  have ⟨b, hb, hbits⟩ := setBits_get (Bucket.locate base) canonical hfresh
  refine ⟨b, hb, fun id hid hlocate => ?_⟩
  rw [Bool.eq_iff_iff, hbits _ (Bucket.bit_lt id), Bucket.get_empty, decide_eq_true_eq]
  constructor
  · rintro (hfalse | ⟨id', hmem, hbucket, hbit⟩)
    · cases hfalse
    · have hle := hcanonical id' hmem
      have hmono := locate_mono hle
      have heq := Bucket.eq_of_bit_eq (by omega) (by omega) (show Bucket.locate id' = Bucket.locate id by omega) hbit
      exact heq ▸ hmem
  · intro hmem
    exact .inr ⟨id, hmem, by omega, rfl⟩

/-- The oracle answers for the ids of the log as the ancestry says. -/
theorem restore_spec {base tip : Nat} {canonical : List Nat} (hbase : 0 < base) (hle : base ≤ tip)
    (hcanonical : ∀ id ∈ canonical, base ≤ id ∧ id ≤ tip) :
    ∃ c', c.restore base tip canonical = some c' ∧ c'.tip = tip ∧
      ∀ id, base ≤ id → c'.isCanonical c'.snapshot id = decide (id ∈ canonical) := by
  have hall : (canonical.all fun id => decide
      (Bucket.locate base ≤ Bucket.locate id ∧ Bucket.locate id ≤ Bucket.locate tip)) = true := by
    refine List.all_eq_true.mpr fun id hid => decide_eq_true ?_
    exact ⟨locate_mono (hcanonical id hid).1, locate_mono (hcanonical id hid).2⟩
  have hspan := locate_mono hle
  unfold restore
  dsimp only
  rw [if_neg (by omega), if_pos hall]
  generalize hbuckets : setBits (Bucket.locate base) canonical
    (List.replicate (Bucket.locate tip - Bucket.locate base + 1) {}) = buckets
  have hlength : buckets.length = Bucket.locate tip - Bucket.locate base + 1 := by
    rw [← hbuckets, length_setBits, List.length_replicate]
  have hbits : ∀ k < buckets.length, ∃ b, buckets[k]? = some b ∧ ∀ id, base ≤ id →
      Bucket.locate id = Bucket.locate base + k → b.get (Bucket.bit id) = decide (id ∈ canonical) := by
    intro k hk
    rw [← hbuckets]
    exact setBits_replicate hbase (fun id hid => (hcanonical id hid).1) (hlength ▸ hk)
  generalize htail : c.newBucket (buckets.getLastD {}) = tail
  generalize hsealed : tail.2.newBucket (buckets.dropLast.getLastD {}) = lastSealed
  generalize hring : lastSealed.2.newRing (.new (Bucket.locate base)) = body
  have hbody : body.1 < body.2.rings.size := by
    rw [← hring]
    exact Nat.lt_of_lt_of_eq (Nat.lt_succ_self _) Heap.size_alloc.symm
  obtain ⟨hgrows, hpushed⟩ := pushAll_spec buckets.dropLast.dropLast hbody
  generalize pushAll body.1 buckets.dropLast.dropLast body.2 = c1 at hgrows hpushed
  have hstart : (body.2.ring body.1).tip = Bucket.locate base := by
    rw [← hring]
    exact congrArg AtomicRing.tip Heap.read_alloc_self
  have htail' : c1.bucket tail.1 = buckets.getLastD {} := by
    have h1 : tail.2.bucket tail.1 = buckets.getLastD {} := htail ▸ Heap.read_alloc_self
    have hlt : tail.1 < tail.2.buckets.size := by
      rw [← htail]
      exact Nat.lt_of_lt_of_eq (Nat.lt_succ_self _) Heap.size_alloc.symm
    have hgrows' : Grows tail.2 c1 :=
      (hsealed ▸ Grows.newBucket tail.2 _ : Grows tail.2 lastSealed.2).trans
        ((hring ▸ Grows.newRing lastSealed.2 _ : Grows lastSealed.2 body.2).trans hgrows)
    exact (hgrows'.bucket _ hlt).trans h1
  have hsealed' : c1.bucket lastSealed.1 = buckets.dropLast.getLastD {} := by
    have h1 : lastSealed.2.bucket lastSealed.1 = buckets.dropLast.getLastD {} := hsealed ▸ Heap.read_alloc_self
    have hlt : lastSealed.1 < lastSealed.2.buckets.size := by
      rw [← hsealed]
      exact Nat.lt_of_lt_of_eq (Nat.lt_succ_self _) Heap.size_alloc.symm
    have hgrows' : Grows lastSealed.2 c1 :=
      (hring ▸ Grows.newRing lastSealed.2 _ : Grows lastSealed.2 body.2).trans hgrows
    exact (hgrows'.bucket _ hlt).trans h1
  refine ⟨_, rfl, congrArg Snapshot.tip (snapshot_publish _), fun id hid => ?_⟩
  rw [snapshot_publish]
  have hlocate := locate_mono hid
  unfold isCanonical
  dsimp only
  split
  · next hout =>
    refine (decide_eq_false fun hmem => ?_).symm
    have := hcanonical id hmem
    omega
  next hin =>
  have hupper := locate_mono (show id ≤ tip by omega)
  split
  · next heq =>
    obtain ⟨b, hb, hget⟩ := hbits (buckets.length - 1) (by omega)
    change (c1.bucket tail.1).get (Bucket.bit id) = _
    rw [htail', List.getLastD_eq_getLast?, List.getLast?_eq_getElem?, hb]
    exact hget id hid (by omega)
  next hnotTail =>
  split
  · next heq =>
    obtain ⟨b, hb, hget⟩ := hbits (buckets.length - 2) (by omega)
    change (c1.bucket lastSealed.1).get (Bucket.bit id) = _
    rw [hsealed', List.getLastD_eq_getLast?, List.getLast?_eq_getElem?, List.length_dropLast,
      List.getElem?_dropLast, if_pos (by omega), show buckets.length - 1 - 1 = buckets.length - 2 by omega, hb]
    exact hget id hid (by omega)
  · next hnotSealed =>
    obtain ⟨b, hb, hget⟩ := hbits (Bucket.locate id - Bucket.locate base) (by omega)
    have hinner : buckets.dropLast.dropLast[Bucket.locate id - Bucket.locate base]? = some b := by
      rw [List.getElem?_dropLast, List.getElem?_dropLast, List.length_dropLast, if_pos (by omega),
        if_pos (by omega), hb]
    obtain ⟨ref, href, hcontent⟩ := hpushed _ b hinner
    rw [hstart, Nat.add_sub_cancel' hlocate] at href
    rw [show ((c1.publish _).ring body.1).get (Bucket.locate id) = some ref from href]
    change (c1.bucket ref).get (Bucket.bit id) = _
    rw [hcontent]
    exact hget id hid (by omega)

theorem tip_restore {base tip : Nat} {canonical : List Nat} {c' : CanonicalChain} (htip : tip ≠ 0)
    (h : c.restore base tip canonical = some c') : c'.tip = tip := by
  simp only [restore, if_neg htip] at h
  split at h
  · cases h
    exact congrArg Snapshot.tip (snapshot_publish _)
  · cases h

end CanonicalChain

end Vprogs.Canonical
