import Vprogs.Canonical.Growth

/-!
Published snapshots. Whatever the writer does next, the buckets and rings an older
snapshot refers to keep the bits it reads: rings only grow or lose finalized buckets,
edits go to copies, and the one bit set in place lies above the tip of every snapshot
that shares the bucket.
-/
namespace Vprogs.Canonical

open Runs (run)

namespace CanonicalChain

/-! ### Older snapshots -/

/-- What keeps a snapshot readable. The tail it shares with the current one has no bit
above the current tip that it could read. -/
structure Reads (c : CanonicalChain) (s : Snapshot) : Prop where
  held : c.Held s.hotZone s.body
  sealed_ne : s.hotZone.lastSealed ≠ c.snapshot.hotZone.tail
  shared : s.hotZone.tail = c.snapshot.hotZone.tail →
    s.hotZone.tailBucket = c.snapshot.hotZone.tailBucket ∧
      ∀ id, Bucket.locate id = s.hotZone.tailBucket → id ≤ s.tip → id ≤ c.tip
  sealed : s.hotZone.tailBucket ≤ (c.ring s.body).tip + 1
  located : ∀ id, 0 < id → id ≤ s.tip → Bucket.locate id ≤ s.hotZone.tailBucket

structure Shared (c : CanonicalChain) : Prop where
  current : c.current < c.snapshots.size
  entries : c.Entries
  apart : c.Apart c.snapshot.hotZone.tail
  reads : ∀ k < c.snapshots.size, c.Reads (c.snapshots.read k)

theorem isCanonical_congr {c c' : CanonicalChain} {s : Snapshot} {id : Nat}
    (htail : 0 < id → id ≤ s.tip → Bucket.locate id = s.hotZone.tailBucket →
      (c'.bucket s.hotZone.tail).get (Bucket.bit id) = (c.bucket s.hotZone.tail).get (Bucket.bit id))
    (hsealed : c'.bucket s.hotZone.lastSealed = c.bucket s.hotZone.lastSealed)
    (hget : Bucket.locate id + 1 < s.hotZone.tailBucket →
      (c'.ring s.body).get (Bucket.locate id) = (c.ring s.body).get (Bucket.locate id))
    (hbody : ∀ ref, (c.ring s.body).get (Bucket.locate id) = some ref → c'.bucket ref = c.bucket ref)
    (hlocated : 0 < id → id ≤ s.tip → Bucket.locate id ≤ s.hotZone.tailBucket) :
    c'.isCanonical s id = c.isCanonical s id := by
  rw [isCanonical, isCanonical]
  split
  · rfl
  · next hrange =>
    split
    · next htb => exact htail (by omega) (by omega) htb
    · next htb =>
      split
      · rw [hsealed]
      · next hlast =>
        have hle := hlocated (by omega) (by omega)
        rw [hget (by omega)]
        cases hentry : (c.ring s.body).get (Bucket.locate id) with
        | none => rfl
        | some ref =>
          dsimp only
          rw [hbody ref hentry]

variable {c c' : CanonicalChain}

/-- Growth that leaves the buckets of a snapshot alone leaves its answers alone. -/
theorem Reads.isCanonical_eq {s : Snapshot} (h : c.Reads s) (entries : c.Entries) {id : Nat}
    (htail : 0 < id → id ≤ s.tip → Bucket.locate id = s.hotZone.tailBucket →
      (c'.bucket s.hotZone.tail).get (Bucket.bit id) = (c.bucket s.hotZone.tail).get (Bucket.bit id))
    (hbucket : ∀ ref < c.buckets.size, ref ≠ c.snapshot.hotZone.tail → c'.bucket ref = c.bucket ref)
    (apart : c.Apart c.snapshot.hotZone.tail)
    (hget : Bucket.locate id < (c.ring s.body).tip →
      (c'.ring s.body).get (Bucket.locate id) = (c.ring s.body).get (Bucket.locate id)) :
    c'.isCanonical s id = c.isCanonical s id := by
  refine isCanonical_congr htail (hbucket _ h.held.lastSealed h.sealed_ne) (fun hlt => hget ?_)
    (fun ref href => ?_) (h.located id)
  · have := h.sealed
    omega
  · refine hbucket ref (entries _ h.held.body _ _ href) fun heq => ?_
    exact apart _ h.held.body _ (heq ▸ href)

theorem snapshot_publish (s : Snapshot) : (c.publish s).snapshot = s := Heap.read_alloc_self

/-- A step keeps every published snapshot and its answers, from the bound on. -/
structure Keeps (c c' : CanonicalChain) (bound : Nat) : Prop where
  size : c.snapshots.size ≤ c'.snapshots.size
  snapshot : ∀ k < c.snapshots.size, c'.snapshots.read k = c.snapshots.read k
  answers : ∀ k < c.snapshots.size, ∀ id, bound ≤ id →
    c'.isCanonical (c.snapshots.read k) id = c.isCanonical (c.snapshots.read k) id

/-- What the writer has built when it publishes `s`. -/
structure Advances (c m : CanonicalChain) (s : Snapshot) : Prop where
  size : c.buckets.size ≤ m.buckets.size
  bucket : ∀ ref < c.buckets.size, ref ≠ c.snapshot.hotZone.tail → m.bucket ref = c.bucket ref
  -- bits of the tail are set above the tip only
  bits : ∀ id, 0 < id → id ≤ c.tip → Bucket.locate id = c.snapshot.hotZone.tailBucket →
    (m.bucket c.snapshot.hotZone.tail).get (Bucket.bit id) =
      (c.bucket c.snapshot.hotZone.tail).get (Bucket.bit id)
  rings : c.rings.size ≤ m.rings.size
  tip : ∀ r < c.rings.size, (c.ring r).tip ≤ (m.ring r).tip
  get : ∀ r < c.rings.size, ∀ i < (c.ring r).tip, (m.ring r).get i = (c.ring r).get i
  snapshots : m.snapshots = c.snapshots
  held : m.Held s.hotZone s.body
  entries : m.Entries
  apart : m.Apart s.hotZone.tail
  sealed_ne : s.hotZone.lastSealed ≠ s.hotZone.tail
  sealed : s.hotZone.tailBucket ≤ (m.ring s.body).tip + 1
  located : ∀ id, 0 < id → id ≤ s.tip → Bucket.locate id ≤ s.hotZone.tailBucket
  -- a tail that is kept has no bit left above the new tip
  tail : c.buckets.size ≤ s.hotZone.tail ∨
    s.hotZone.tail = c.snapshot.hotZone.tail ∧
      s.hotZone.tailBucket = c.snapshot.hotZone.tailBucket ∧
      ∀ id, Bucket.locate id = s.hotZone.tailBucket → id ≤ c.tip → id ≤ s.tip

section publish

variable {m : CanonicalChain} {s : Snapshot}

theorem Advances.reads (adv : Advances c m s) {old : Snapshot} (h : c.Reads old) :
    (m.publish s).Reads old := by
  have hsnap : (m.publish s).snapshot = s := snapshot_publish s
  refine ⟨⟨?_, ?_, ?_⟩, ?_, ?_, ?_, h.located⟩
  · exact Nat.lt_of_lt_of_le h.held.tail adv.size
  · exact Nat.lt_of_lt_of_le h.held.lastSealed adv.size
  · exact Nat.lt_of_lt_of_le h.held.body adv.rings
  · rw [hsnap]
    match adv.tail with
    | .inl hnew => exact fun heq => Nat.not_lt.mpr hnew (heq ▸ h.held.lastSealed)
    | .inr ⟨hsame, _⟩ => exact hsame ▸ h.sealed_ne
  · rw [CanonicalChain.tip, hsnap]
    intro heq
    match adv.tail with
    | .inl hnew => exact absurd (heq ▸ h.held.tail) (Nat.not_lt.mpr hnew)
    | .inr ⟨hsame, hbucket, hkept⟩ =>
      have ⟨hold, hshared⟩ := h.shared (heq.trans hsame)
      rw [hbucket] at hkept ⊢
      exact ⟨hold, fun id hid hle => hkept id (hid.trans hold) (hshared id hid hle)⟩
  · exact Nat.le_trans h.sealed (Nat.succ_le_succ (adv.tip _ h.held.body))

theorem Shared.publish (h : c.Shared) (adv : Advances c m s) :
    (m.publish s).Shared ∧ Keeps c (m.publish s) 0 := by
  have hsnap : (m.publish s).snapshot = s := snapshot_publish s
  have hsize : (m.publish s).snapshots.size = c.snapshots.size + 1 := by
    rw [← adv.snapshots]
    exact Heap.size_alloc
  have hkept : ∀ k < c.snapshots.size, (m.publish s).snapshots.read k = c.snapshots.read k := by
    intro k hk
    rw [← adv.snapshots] at hk ⊢
    exact Heap.read_alloc_of_lt hk
  refine ⟨⟨?_, adv.entries, ?_, fun k hk => ?_⟩, ⟨by omega, hkept, fun k hk id _ => ?_⟩⟩
  · exact Nat.lt_of_lt_of_eq (Nat.lt_succ_self _) Heap.size_alloc.symm
  · rw [hsnap]
    exact adv.apart
  · by_cases hnew : k < c.snapshots.size
    · rw [hkept k hnew]
      exact adv.reads (h.reads k hnew)
    · have hlast : (m.publish s).snapshots.read k = s := by
        have hk' : k = m.snapshots.size := by rw [adv.snapshots]; omega
        rw [hk']
        exact Heap.read_alloc_self
      rw [hlast]
      refine ⟨⟨adv.held.tail, adv.held.lastSealed, adv.held.body⟩, ?_, ?_, adv.sealed, adv.located⟩
      · rw [hsnap]
        exact adv.sealed_ne
      · rw [CanonicalChain.tip, hsnap]
        exact fun _ => ⟨rfl, fun id _ hle => hle⟩
  · have hread := h.reads k hk
    refine hread.isCanonical_eq h.entries (fun hpos hle hlocate => ?_) adv.bucket h.apart fun hlt =>
      adv.get _ hread.held.body _ hlt
    by_cases heq : (c.snapshots.read k).hotZone.tail = c.snapshot.hotZone.tail
    · have ⟨hbucket, hshared⟩ := hread.shared heq
      rw [heq]
      exact adv.bits id hpos (hshared id hlocate hle) (hlocate.trans hbucket)
    · exact congrArg (Bucket.get · _) (adv.bucket _ hread.held.tail heq)

end publish

theorem append_advances {debug : Bool} {id : Nat} (h : c.Shared) (hstep : c.append debug id = some c') :
    ∃ m s, Advances c m s ∧ c' = m.publish s := by
  rw [append] at hstep
  split at hstep
  case isFalse => cases hstep
  next htip =>
  have ⟨⟨hot, m⟩, hroll, heq⟩ := Option.map_eq_some_iff.mp hstep
  have hcur : c.Reads c.snapshot := h.reads c.current h.current
  have rolled := rollForward_spec hcur.held h.entries h.apart hcur.sealed_ne hroll
  have hwrite : ∀ ref, ref ≠ hot.tail → (m.setBit hot.tail (Bucket.bit id)).bucket ref = m.bucket ref :=
    fun ref hne => Heap.read_write_of_ne hne
  have hself : (m.setBit hot.tail (Bucket.bit id)).bucket hot.tail =
      (m.bucket hot.tail).set (Bucket.bit id) := Heap.read_write_self rolled.held.tail
  have hsize : (m.setBit hot.tail (Bucket.bit id)).buckets.size = m.buckets.size := Heap.size_write
  refine ⟨m.setBit hot.tail (Bucket.bit id), ⟨id, hot, c.snapshot.body⟩, ?_, heq.symm⟩
  constructor
  case size => exact hsize ▸ rolled.grows.size
  case rings => exact rolled.grows.rings
  case tip => exact rolled.grows.tip
  case get => exact rolled.grows.get
  case snapshots => exact rolled.grows.snapshots
  case held => exact ⟨hsize ▸ rolled.held.tail, hsize ▸ rolled.held.lastSealed, rolled.held.body⟩
  case entries => exact fun r hr i ref hget => hsize ▸ rolled.entries r hr i ref hget
  case apart => exact rolled.apart
  case sealed_ne => exact rolled.sealed_ne
  case sealed => exact rolled.tailBucket ▸ rolled.sealed hcur.sealed
  case located => exact fun i _ hi => rolled.tailBucket ▸ locate_mono hi
  case bucket =>
    intro ref href hne
    rw [hwrite, rolled.grows.bucket ref href]
    match rolled.tail with
    | .inl hsame => exact hsame ▸ hne
    | .inr hnew => exact Nat.ne_of_lt (Nat.lt_of_lt_of_le href hnew)
  case bits =>
    intro i hpos hle hlocate
    rw [← rolled.grows.bucket _ hcur.held.tail]
    match rolled.tail with
    | .inl hsame =>
      have hne : Bucket.bit id ≠ Bucket.bit i := by
        intro hbit
        have hbucket : Bucket.locate id = Bucket.locate i := by
          rw [hlocate, ← rolled.tailBucket, hsame]
        have := Bucket.eq_of_bit_eq (Nat.zero_lt_of_lt htip) hpos hbucket hbit
        omega
      rw [hsame] at hself ⊢
      rw [hself, Bucket.get_set (Bucket.bit_lt i), decide_eq_false hne, Bool.or_false]
    | .inr hnew => rw [hwrite _ (Nat.ne_of_lt (Nat.lt_of_lt_of_le hcur.held.tail hnew))]
  case tail =>
    match rolled.tail with
    | .inl hsame => exact .inr ⟨by rw [hsame], by rw [hsame], fun i _ hle => Nat.le_trans hle (Nat.le_of_lt htip)⟩
    | .inr hnew => exact .inl hnew

theorem Shared.edited (h : c.Shared) : Edited c c.snapshot.body (c.snapshot.hotZone, c) := by
  have hcur : c.Reads c.snapshot := h.reads c.current h.current
  exact ⟨.refl c, hcur.held, h.entries, h.apart, hcur.sealed_ne, rfl, .inl rfl, rfl⟩

theorem Shared.edited_fork (h : c.Shared) :
    Edited c (c.newRing (c.ring c.snapshot.body).fork).1
      (c.snapshot.hotZone, (c.newRing (c.ring c.snapshot.body).fork).2) := by
  have hcur : c.Reads c.snapshot := h.reads c.current h.current
  have hgrows := Grows.newRing c (c.ring c.snapshot.body).fork
  have hring : (c.newRing (c.ring c.snapshot.body).fork).2.ring c.rings.size =
      (c.ring c.snapshot.body).fork := Heap.read_alloc_self
  have hsize : (c.newRing (c.ring c.snapshot.body).fork).2.rings.size = c.rings.size + 1 :=
    Heap.size_alloc
  refine ⟨hgrows, ⟨hcur.held.tail, hcur.held.lastSealed, ?_⟩, h.entries.newRing fun i ref hget => ?_,
    fun r hr i hget => ?_, hcur.sealed_ne, rfl, .inl rfl, ?_⟩
  · exact Nat.lt_of_lt_of_eq (Nat.lt_succ_self _) hsize.symm
  · rw [AtomicRing.get_fork] at hget
    exact h.entries _ hcur.held.body i ref hget
  · by_cases hold : r < c.rings.size
    · rw [ring, show (c.newRing (c.ring c.snapshot.body).fork).2.rings.read r = c.rings.read r from
        Heap.read_alloc_of_lt hold] at hget
      exact h.apart r hold i hget
    · have hlt : r < c.rings.size + 1 := Nat.lt_of_lt_of_eq hr hsize
      have hr' : r = c.rings.size := by omega
      rw [hr', hring, AtomicRing.get_fork] at hget
      exact h.apart _ hcur.held.body i hget
  · exact (congrArg AtomicRing.tip hring).trans rfl

/-- A rollback starts from the ring of the current snapshot or a fork of it, and edits
only what is its own. -/
theorem rollback_eq {debug : Bool} {newTip : Nat} (h : c.Shared)
    (hstep : c.rollback debug newTip = some c') :
    newTip ≤ c.tip ∧ ∃ body m, Edited c body (c.snapshot.hotZone, m) ∧
      (∀ i, (m.ring body).get i = (c.ring c.snapshot.body).get i) ∧
      (∀ edit ∈ edits newTip c.tip, c.Hot edit.1 ∨ c.rings.size ≤ body) ∧
      c' = ((edits newTip c.tip).foldl (applyEdit body) (c.snapshot.hotZone, m)).2.publish
        ⟨newTip, ((edits newTip c.tip).foldl (applyEdit body) (c.snapshot.hotZone, m)).1, body⟩ := by
  rw [rollback] at hstep
  split at hstep
  case isFalse => cases hstep
  next htip =>
  have hcur : c.Reads c.snapshot := h.reads c.current h.current
  refine ⟨htip, ?_⟩
  dsimp only at hstep
  split at hstep
  · next hdeep =>
    rw [rollForward_self] at hstep
    refine ⟨_, _, h.edited_fork, fun i => ?_, fun _ _ => .inr (Nat.le_refl _),
      (Option.some.inj hstep).symm⟩
    have hring : (c.newRing (c.ring c.snapshot.body).fork).2.ring c.rings.size =
        (c.ring c.snapshot.body).fork := Heap.read_alloc_self
    exact (congrArg (AtomicRing.get · i) hring).trans AtomicRing.get_fork
  · next hdeep =>
    rw [rollForward_self] at hstep
    refine ⟨_, _, h.edited, fun _ => rfl, fun edit hedit => .inl ?_, (Option.some.inj hstep).symm⟩
    -- a shallow rollback takes back ids of the two hot buckets only
    have ⟨id, hlt, hle, hlocate⟩ := mem_edits.mp (List.mem_map_of_mem hedit)
    have hupper := hcur.located id (by omega) hle
    have hlower := locate_mono (show newTip + 1 ≤ id from hlt)
    rw [Hot]
    omega

theorem rollback_advances {debug : Bool} {newTip : Nat} (h : c.Shared)
    (hstep : c.rollback debug newTip = some c') : ∃ m s, Advances c m s ∧ c' = m.publish s := by
  have ⟨htip, body, m, hstart, _, hedits, hbuilt⟩ := rollback_eq h hstep
  have hcur : c.Reads c.snapshot := h.reads c.current h.current
  have ⟨hdone, hnew⟩ := foldl_applyEdit_spec hstart hedits
  generalize (edits newTip c.tip).foldl (applyEdit body) (c.snapshot.hotZone, m) = done at *
  refine ⟨done.2, ⟨newTip, done.1, body⟩, ?_, hbuilt⟩
  constructor
  case size => exact hdone.grows.size
  case bucket => exact fun ref href _ => hdone.grows.bucket ref href
  case bits => exact fun _ _ _ _ => by rw [hdone.grows.bucket _ hcur.held.tail]
  case rings => exact hdone.grows.rings
  case tip => exact hdone.grows.tip
  case get => exact hdone.grows.get
  case snapshots => exact hdone.grows.snapshots
  case held => exact hdone.held
  case entries => exact hdone.entries
  case apart => exact hdone.apart
  case sealed_ne => exact hdone.sealed_ne
  case sealed =>
    change done.1.tailBucket ≤ (done.2.ring body).tip + 1
    rw [hdone.tailBucket, hdone.next]
    exact hcur.sealed
  case located =>
    intro id hpos hle
    exact hdone.tailBucket ▸ hcur.located id hpos (Nat.le_trans hle htip)
  case tail =>
    by_cases hfresh : c.buckets.size ≤ done.1.tail
    · exact .inl hfresh
    · refine .inr ⟨hdone.tail.resolve_right hfresh, hdone.tailBucket, fun id hlocate hle => ?_⟩
      by_contra hlt
      refine hfresh (hnew (.inl (mem_edits.mpr ⟨id, Nat.not_le.mp hlt, hle, ?_⟩)))
      exact hlocate.trans hdone.tailBucket

/-! ### Runs -/

theorem Shared.finalize (h : c.Shared) (below : Nat) :
    (c.finalize below).Shared ∧ Keeps c (c.finalize below) below := by
  have hcur : c.Reads c.snapshot := h.reads c.current h.current
  rw [CanonicalChain.finalize]
  split
  case isFalse => exact ⟨h, Nat.le_refl _, fun _ _ => rfl, fun _ _ _ _ => rfl⟩
  next hbelow =>
  let pruned := (c.ring c.snapshot.body).pruneBelow (Bucket.locate below)
  have hself : (c.setRing c.snapshot.body pruned).ring c.snapshot.body = pruned :=
    Heap.read_write_self hcur.held.body
  have hother : ∀ r, r ≠ c.snapshot.body → (c.setRing c.snapshot.body pruned).ring r = c.ring r :=
    fun r hr => Heap.read_write_of_ne hr
  have hsize : (c.setRing c.snapshot.body pruned).rings.size = c.rings.size := Heap.size_write
  have htip : ∀ r, ((c.setRing c.snapshot.body pruned).ring r).tip = (c.ring r).tip := by
    intro r
    by_cases heq : r = c.snapshot.body
    · rw [heq, hself]
      rfl
    · rw [hother r heq]
  have hget : ∀ r i, ((c.setRing c.snapshot.body pruned).ring r).get i = (c.ring r).get i ∨
      i < Bucket.locate below ∧ ((c.setRing c.snapshot.body pruned).ring r).get i = none := by
    intro r i
    by_cases heq : r = c.snapshot.body
    · rw [heq, hself, AtomicRing.get_pruneBelow]
      split
      · next hlt => exact .inr ⟨hlt, rfl⟩
      · exact .inl rfl
    · exact .inl (by rw [hother r heq])
  have hread : ∀ r i ref, ((c.setRing c.snapshot.body pruned).ring r).get i = some ref →
      (c.ring r).get i = some ref := by
    intro r i ref hsome
    match hget r i with
    | .inl heq => exact heq ▸ hsome
    | .inr ⟨_, hnone⟩ =>
      rw [hnone] at hsome
      cases hsome
  refine ⟨⟨h.current, fun r hr i ref hsome => h.entries r (hsize ▸ hr) i ref (hread r i ref hsome),
    fun r hr i hsome => h.apart r (hsize ▸ hr) i (hread r i _ hsome), fun k hk => ?_⟩,
    Nat.le_refl _, fun _ _ => rfl, fun k hk id hid => ?_⟩
  · have old := h.reads k hk
    exact ⟨⟨old.held.tail, old.held.lastSealed, hsize ▸ old.held.body⟩, old.sealed_ne, old.shared,
      (htip _).symm ▸ old.sealed, old.located⟩
  · have old := h.reads k hk
    refine old.isCanonical_eq h.entries (fun _ _ _ => rfl) (fun _ _ _ => rfl) h.apart fun _ => ?_
    match hget (c.snapshots.read k).body (Bucket.locate id) with
    | .inl heq => exact heq
    | .inr ⟨hlt, _⟩ => exact absurd (locate_mono hid) (Nat.not_le.mpr hlt)

theorem Keeps.refl (c : CanonicalChain) (bound : Nat) : Keeps c c bound :=
  ⟨Nat.le_refl _, fun _ _ => rfl, fun _ _ _ _ => rfl⟩

theorem Keeps.trans {c'' : CanonicalChain} {a b bound : Nat} (h : Keeps c c' a) (h' : Keeps c' c'' b)
    (ha : a ≤ bound) (hb : b ≤ bound) : Keeps c c'' bound where
  size := Nat.le_trans h.size h'.size
  snapshot k hk := (h'.snapshot k (Nat.lt_of_lt_of_le hk h.size)).trans (h.snapshot k hk)
  answers k hk id hid := by
    rw [← h.answers k hk id (Nat.le_trans ha hid), ← h.snapshot k hk]
    exact h'.answers k (Nat.lt_of_lt_of_le hk h.size) id (Nat.le_trans hb hid)

theorem step_keeps {debug : Bool} {op : Op Nat} (h : c.Shared) (hstep : c.step debug op = some c') :
    c'.Shared ∧ Keeps c c' op.bound := by
  match op with
  | .append id =>
    have ⟨m, s, adv, heq⟩ := append_advances h hstep
    exact heq ▸ h.publish adv
  | .rollback newTip =>
    have ⟨m, s, adv, heq⟩ := rollback_advances h hstep
    exact heq ▸ h.publish adv
  | .finalize below =>
    cases hstep
    exact h.finalize below

theorem run_keeps {debug : Bool} {ops : List (Op Nat)} (h : c.Shared) (hrun : run (step debug) c ops = some c') :
    c'.Shared ∧ ∀ bound, (∀ op ∈ ops, op.bound ≤ bound) → Keeps c c' bound := by
  induction ops generalizing c with
  | nil =>
    cases hrun
    exact ⟨h, fun _ _ => .refl _ _⟩
  | cons op ops ih =>
    have ⟨m, hstep, hrest⟩ := Runs.run_cons.mp hrun
    have ⟨hshared, hkeeps⟩ := step_keeps h hstep
    have ⟨hlast, hkeeps'⟩ := ih hshared hrest
    refine ⟨hlast, fun bound hbound => ?_⟩
    exact hkeeps.trans (hkeeps' bound fun o ho => hbound o (List.mem_cons_of_mem _ ho))
      (hbound op List.mem_cons_self) (Nat.le_refl _)

theorem shared_empty : empty.Shared where
  current := Nat.one_pos
  entries r hr i ref hget := by
    have hr0 : r = 0 := Nat.lt_one_iff.mp hr
    rw [hr0, show empty.ring 0 = .new 0 from rfl] at hget
    rw [AtomicRing.get_eq_none_iff.mpr (.inr (Nat.zero_le i))] at hget
    cases hget
  apart r hr i hget := by
    have hr0 : r = 0 := Nat.lt_one_iff.mp hr
    rw [hr0, show empty.ring 0 = .new 0 from rfl] at hget
    rw [AtomicRing.get_eq_none_iff.mpr (.inr (Nat.zero_le i))] at hget
    cases hget
  reads k hk := by
    have hk0 : k = 0 := Nat.lt_one_iff.mp hk
    rw [hk0]
    exact ⟨⟨by decide, by decide, by decide⟩, by decide, fun _ => ⟨rfl, fun _ _ h => h⟩, Nat.zero_le _,
      fun id hpos hle => absurd hle (Nat.not_le.mpr hpos)⟩

/-- A snapshot taken at any point of a run answers, at any later one, as it did, for
every id that no finalization in between is about. -/
theorem published_snapshot_stable {debug : Bool} {before after : List (Op Nat)}
    (hbefore : run (step debug) empty before = some c) (hafter : run (step debug) c after = some c') {k : Nat}
    (hk : k < c.snapshots.size) {id : Nat} (hid : ∀ below, .finalize below ∈ after → below ≤ id) :
    (c'.snapshots.read k).tip = (c.snapshots.read k).tip ∧
      c'.isCanonical (c'.snapshots.read k) id = c.isCanonical (c.snapshots.read k) id := by
  have hshared := (run_keeps shared_empty hbefore).1
  have hkeeps := (run_keeps hshared hafter).2 id fun op hop => by
    match op with
    | .finalize below => exact hid below hop
    | .append _ | .rollback _ => exact Nat.zero_le _
  rw [hkeeps.snapshot k hk]
  exact ⟨rfl, hkeeps.answers k hk id (Nat.le_refl _)⟩

/-- A snapshot over three buckets, a rollback behind the hot zone, a new branch. -/
theorem deep_rollback_stable :
    ∃ c c', run (step true) empty [.append 1, .append 100, .append 200, .append 300] = some c ∧
      run (step true) c [.rollback 1, .append 301, .finalize 100] = some c' ∧
      c.isCanonical (c.snapshots.read 4) 100 = true ∧ c'.isCanonical c'.snapshot 100 = false ∧
      (c'.snapshots.read 4).tip = (c.snapshots.read 4).tip ∧
      c'.isCanonical (c'.snapshots.read 4) 100 = c.isCanonical (c.snapshots.read 4) 100 := by
  have hrun : ((run (step true) empty [.append 1, .append 100, .append 200, .append 300]).bind fun c =>
      (run (step true) c [.rollback 1, .append 301, .finalize 100]).map fun c' => decide
        (4 < c.snapshots.size ∧ c.isCanonical (c.snapshots.read 4) 100 = true ∧
          c'.isCanonical c'.snapshot 100 = false)) = some true := by
    decide +kernel
  have ⟨c, hc, hmap⟩ := Option.bind_eq_some_iff.mp hrun
  have ⟨c', hc', heq⟩ := Option.map_eq_some_iff.mp hmap
  have ⟨hk, hbefore, hafter⟩ := of_decide_eq_true heq
  refine ⟨c, c', hc, hc', hbefore, hafter, published_snapshot_stable hc hc' hk fun below hbelow => ?_⟩
  simp only [List.mem_cons, reduceCtorEq, Op.finalize.injEq, List.not_mem_nil, or_false, false_or] at hbelow
  omega

end CanonicalChain

end Vprogs.Canonical