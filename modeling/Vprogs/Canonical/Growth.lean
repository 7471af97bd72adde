import Vprogs.Canonical.Oracle
import Mathlib.Data.List.Dedup

/-!
How the writer builds a new snapshot: it adds objects, and seals buckets into a ring
that only grows. A rollback edits copies; where it reaches a sealed bucket it works on
a ring of its own.
-/
namespace Vprogs.Canonical

namespace Bucket

theorem get_set {b : Bucket} {i j : Nat} (hj : j < CAPACITY) :
    (b.set i).get j = (b.get j || decide (i = j)) := by
  simp [get, set, hj, eq_comm]

theorem bit_lt (id : Nat) : bit id < CAPACITY := Nat.mod_lt _ (by decide)

theorem eq_of_bit_eq {a b : Nat} (ha : 0 < a) (hb : 0 < b) (hlocate : locate a = locate b)
    (hbit : bit a = bit b) : a = b := by
  simp only [locate, bit, CAPACITY] at hlocate hbit
  omega

end Bucket

namespace CanonicalChain

/-- Objects are only added, and the rings only grow. -/
structure Grows (c c' : CanonicalChain) : Prop where
  size : c.buckets.size ≤ c'.buckets.size
  bucket : ∀ ref < c.buckets.size, c'.bucket ref = c.bucket ref
  rings : c.rings.size ≤ c'.rings.size
  tip : ∀ r < c.rings.size, (c.ring r).tip ≤ (c'.ring r).tip
  get : ∀ r < c.rings.size, ∀ i < (c.ring r).tip, (c'.ring r).get i = (c.ring r).get i
  snapshots : c'.snapshots = c.snapshots
  current : c'.current = c.current

namespace Grows

variable {a b c : CanonicalChain}

theorem refl (c : CanonicalChain) : Grows c c where
  size := Nat.le_refl _
  bucket _ _ := rfl
  rings := Nat.le_refl _
  tip _ _ := Nat.le_refl _
  get _ _ _ _ := rfl
  snapshots := rfl
  current := rfl

theorem trans (h : Grows a b) (h' : Grows b c) : Grows a c where
  size := Nat.le_trans h.size h'.size
  bucket ref href := (h'.bucket ref (Nat.lt_of_lt_of_le href h.size)).trans (h.bucket ref href)
  rings := Nat.le_trans h.rings h'.rings
  tip r hr := Nat.le_trans (h.tip r hr) (h'.tip r (Nat.lt_of_lt_of_le hr h.rings))
  get r hr i hi :=
    (h'.get r (Nat.lt_of_lt_of_le hr h.rings) i (Nat.lt_of_lt_of_le hi (h.tip r hr))).trans
      (h.get r hr i hi)
  snapshots := h'.snapshots.trans h.snapshots
  current := h'.current.trans h.current

theorem newBucket (c : CanonicalChain) (b : Bucket) : Grows c (c.newBucket b).2 :=
  { refl c with
    size := by
      change _ ≤ (c.buckets.alloc b).size
      rw [Heap.size_alloc]
      exact Nat.le_succ _
    bucket := fun _ href => Heap.read_alloc_of_lt href }

theorem newRing (c : CanonicalChain) (r : AtomicRing Nat) : Grows c (c.newRing r).2 :=
  have hring : ∀ i < c.rings.size, (c.newRing r).2.ring i = c.ring i :=
    fun _ hi => Heap.read_alloc_of_lt hi
  { refl c with
    rings := by
      change _ ≤ (c.rings.alloc r).size
      rw [Heap.size_alloc]
      exact Nat.le_succ _
    tip := fun i hi => Nat.le_of_eq (by rw [hring i hi])
    get := fun i hi j _ => by rw [hring i hi] }

theorem push (c : CanonicalChain) {body : Nat} (hbody : body < c.rings.size) (ref : Nat) :
    Grows c (c.setRing body ((c.ring body).push ref)) := by
  have hself : (c.setRing body ((c.ring body).push ref)).ring body = (c.ring body).push ref :=
    Heap.read_write_self hbody
  have hother : ∀ r, r ≠ body → (c.setRing body ((c.ring body).push ref)).ring r = c.ring r :=
    fun r hr => Heap.read_write_of_ne hr
  refine { refl c with rings := ?_, tip := fun r hr => ?_, get := fun r hr i hi => ?_ }
  · exact Nat.le_of_eq Heap.size_write.symm
  · by_cases heq : r = body
    · rw [heq, hself]
      exact Nat.le_succ _
    · exact Nat.le_of_eq (by rw [hother r heq])
  · by_cases heq : r = body
    · rw [heq] at hi ⊢
      rw [hself, AtomicRing.get_push, if_neg (Nat.ne_of_lt hi)]
    · rw [hother r heq]

end Grows

/-- The rings refer to buckets that exist. -/
def Entries (c : CanonicalChain) : Prop :=
  ∀ r < c.rings.size, ∀ i ref, (c.ring r).get i = some ref → ref < c.buckets.size

/-- The tail is in no ring. -/
def Apart (c : CanonicalChain) (tail : Nat) : Prop :=
  ∀ r < c.rings.size, ∀ i, (c.ring r).get i ≠ some tail

/-- The hot zone and the ring it seals into exist. -/
structure Held (c : CanonicalChain) (hot : HotZone) (body : Nat) : Prop where
  tail : hot.tail < c.buckets.size
  lastSealed : hot.lastSealed < c.buckets.size
  body : body < c.rings.size

theorem Held.grows {c c' : CanonicalChain} {hot : HotZone} {body : Nat} (h : c.Held hot body)
    (hgrows : Grows c c') : c'.Held hot body :=
  ⟨Nat.lt_of_lt_of_le h.tail hgrows.size, Nat.lt_of_lt_of_le h.lastSealed hgrows.size,
    Nat.lt_of_lt_of_le h.body hgrows.rings⟩

section roll

variable {c : CanonicalChain} {hot : HotZone} {body : Nat}

theorem bucketAt_grows (idx : Nat) : Grows c (c.bucketAt hot idx).2 := by
  rw [bucketAt]
  split
  · exact .refl c
  · split
    · exact .refl c
    · exact .newBucket c {}

theorem bucketAt_lt (held : c.Held hot body) (idx : Nat) :
    (c.bucketAt hot idx).1 < (c.bucketAt hot idx).2.buckets.size := by
  rw [bucketAt]
  split
  · exact held.tail
  · split
    · exact held.lastSealed
    · change c.buckets.size < (c.buckets.alloc {}).size
      rw [Heap.size_alloc]
      exact Nat.lt_succ_self _

theorem bucketAt_rings (idx : Nat) : (c.bucketAt hot idx).2.rings = c.rings := by
  rw [bucketAt]
  split
  · rfl
  · split <;> rfl

theorem Entries.bucketAt (h : c.Entries) (hot : HotZone) (idx : Nat) : (c.bucketAt hot idx).2.Entries := by
  intro r hr i ref hget
  rw [CanonicalChain.ring, bucketAt_rings] at hget
  rw [bucketAt_rings] at hr
  exact Nat.lt_of_lt_of_le (h r hr i ref hget) (bucketAt_grows idx).size

theorem Entries.push (h : c.Entries) (hbody : body < c.rings.size) {ref : Nat}
    (href : ref < c.buckets.size) : (c.setRing body ((c.ring body).push ref)).Entries := by
  intro r hr i ref' hget
  by_cases heq : r = body
  · have hself : (c.setRing body ((c.ring body).push ref)).ring body = (c.ring body).push ref :=
      Heap.read_write_self hbody
    rw [heq, hself, AtomicRing.get_push] at hget
    split at hget
    · cases hget
      exact href
    · exact h body hbody i ref' hget
  · have hother : (c.setRing body ((c.ring body).push ref)).ring r = c.ring r :=
      Heap.read_write_of_ne heq
    rw [hother] at hget
    have hsize : (c.setRing body ((c.ring body).push ref)).rings.size = c.rings.size := Heap.size_write
    exact h r (hsize ▸ hr) i ref' hget

theorem sealBehind_spec (count : Nat) (held : c.Held hot body) (entries : c.Entries) :
    Grows c (sealBehind hot body count c) ∧ (sealBehind hot body count c).Entries ∧
      ((sealBehind hot body count c).ring body).tip = (c.ring body).tip + count := by
  induction count generalizing c with
  | zero => exact ⟨.refl c, entries, rfl⟩
  | succ count ih =>
    let sealed := c.bucketAt hot (c.ring body).nextIndex
    have hsealed : Grows c sealed.2 := bucketAt_grows _
    have held' := held.grows hsealed
    have hpush := Grows.push sealed.2 held'.body sealed.1
    have ⟨hgrows, hentries, htip⟩ := ih (held'.grows hpush)
      ((entries.bucketAt hot _).push held'.body (bucketAt_lt held _))
    refine ⟨(hsealed.trans hpush).trans hgrows, hentries, htip.trans ?_⟩
    have hring : (sealed.2.setRing body ((sealed.2.ring body).push sealed.1)).ring body =
        (sealed.2.ring body).push sealed.1 := Heap.read_write_self held'.body
    have hsame : sealed.2.ring body = c.ring body := congrArg (Heap.read · body) (bucketAt_rings _)
    rw [hring, hsame]
    change (c.ring body).tip + 1 + count = _
    omega

/-- A new bucket is in no ring. -/
theorem Entries.apart (h : c.Entries) {tail : Nat} (htail : c.buckets.size ≤ tail) : c.Apart tail :=
  fun r hr i hget => Nat.not_lt.mpr htail (h r hr i tail hget)

/-- What an advance of the hot zone leaves. -/
structure Rolled (c : CanonicalChain) (hot : HotZone) (target body : Nat) (hot' : HotZone)
    (c' : CanonicalChain) : Prop where
  grows : Grows c c'
  held : c'.Held hot' body
  entries : c'.Entries
  apart : c'.Apart hot'.tail
  sealed_ne : hot'.lastSealed ≠ hot'.tail
  tailBucket : hot'.tailBucket = target
  tail : hot' = hot ∨ c.buckets.size ≤ hot'.tail
  sealed : hot.tailBucket ≤ (c.ring body).tip + 1 → target ≤ (c'.ring body).tip + 1

theorem rollForward_spec {debug : Bool} {target : Nat} {hot' : HotZone} {c' : CanonicalChain}
    (held : c.Held hot body) (entries : c.Entries) (apart : c.Apart hot.tail)
    (hne : hot.lastSealed ≠ hot.tail) (h : c.rollForward debug hot target body = some (hot', c')) :
    Rolled c hot target body hot' c' := by
  rw [rollForward] at h
  split at h
  · cases h
  split at h
  · next htarget =>
    cases h
    exact ⟨.refl _, held, entries, apart, hne, htarget.symm, .inl rfl, fun hle => htarget ▸ hle⟩
  · next htarget =>
    cases h
    have ⟨hgrows, hentries, htip⟩ := sealBehind_spec (target - 1 - (c.ring body).nextIndex) held entries
    generalize sealBehind hot body (target - 1 - (c.ring body).nextIndex) c = m at *
    have hlast : Grows m (m.bucketAt hot (target - 1)).2 := bucketAt_grows _
    have htail := Grows.newBucket (m.bucketAt hot (target - 1)).2 {}
    have hlt := bucketAt_lt (held.grows hgrows) (target - 1)
    have hentries' : (m.bucketAt hot (target - 1)).2.Entries := hentries.bucketAt hot _
    have hsize : ((m.bucketAt hot (target - 1)).2.newBucket {}).2.buckets.size =
        (m.bucketAt hot (target - 1)).2.buckets.size + 1 := Heap.size_alloc
    refine ⟨(hgrows.trans hlast).trans htail, ⟨?_, ?_, ?_⟩, ?_, ?_, Nat.ne_of_lt hlt, rfl, .inr ?_, ?_⟩
    · exact Nat.lt_of_lt_of_eq (Nat.lt_succ_self _) hsize.symm
    · exact Nat.lt_of_lt_of_eq (Nat.lt_succ_of_lt hlt) hsize.symm
    · exact (((held.grows hgrows).grows hlast).grows htail).body
    · exact fun r hr i ref hget => Nat.lt_of_lt_of_le (hentries' r hr i ref hget) htail.size
    · exact hentries'.apart (Nat.le_refl _)
    · exact (hgrows.trans hlast).size
    · intro _
      have hring : ((m.bucketAt hot (target - 1)).2.newBucket {}).2.ring body = m.ring body :=
        congrArg (Heap.read · body) (bucketAt_rings _)
      rw [hring, htip, AtomicRing.nextIndex]
      omega

end roll

variable {c c' : CanonicalChain}

theorem locate_mono {a b : Nat} (h : a ≤ b) : Bucket.locate a ≤ Bucket.locate b :=
  Nat.div_le_div_right (Nat.sub_le_sub_right h 1)

/-! ### Edits of a rollback -/

/-- What some of the edits have left: copies, and entries of a ring of the writer's own. -/
structure Edited (c : CanonicalChain) (body : Nat) (rolled : HotZone × CanonicalChain) : Prop where
  grows : Grows c rolled.2
  held : rolled.2.Held rolled.1 body
  entries : rolled.2.Entries
  apart : rolled.2.Apart rolled.1.tail
  sealed_ne : rolled.1.lastSealed ≠ rolled.1.tail
  tailBucket : rolled.1.tailBucket = c.snapshot.hotZone.tailBucket
  tail : rolled.1.tail = c.snapshot.hotZone.tail ∨ c.buckets.size ≤ rolled.1.tail
  next : (rolled.2.ring body).tip = (c.ring c.snapshot.body).tip

/-- The bucket is one of the two hot ones. -/
def Hot (c : CanonicalChain) (bucket : Nat) : Prop :=
  bucket = c.snapshot.hotZone.tailBucket ∨
    1 ≤ c.snapshot.hotZone.tailBucket ∧ bucket = c.snapshot.hotZone.tailBucket - 1

section edits

variable {body : Nat} {rolled : HotZone × CanonicalChain}

/-- An entry replaced in a ring that no snapshot has yet. -/
theorem Edited.replace {hot : HotZone} {m : CanonicalChain} (h : Edited c body (hot, m))
    (hbody : c.rings.size ≤ body) {index ref : Nat} (href : ref < m.buckets.size) (hne : ref ≠ hot.tail) :
    Edited c body (hot, m.setRing body ((m.ring body).replace index ref)) := by
  have hself : (m.setRing body ((m.ring body).replace index ref)).ring body =
      (m.ring body).replace index ref := Heap.read_write_self h.held.body
  have hother : ∀ r, r ≠ body → (m.setRing body ((m.ring body).replace index ref)).ring r = m.ring r :=
    fun r hr => Heap.read_write_of_ne hr
  have hsize : (m.setRing body ((m.ring body).replace index ref)).rings.size = m.rings.size :=
    Heap.size_write
  have hread : ∀ r < m.rings.size, ∀ i ref',
      ((m.setRing body ((m.ring body).replace index ref)).ring r).get i = some ref' →
        ref' = ref ∨ (m.ring r).get i = some ref' := by
    intro r hr i ref' hget
    by_cases heq : r = body
    · rw [heq, hself, AtomicRing.get_replace] at hget
      split at hget
      · exact .inl (Option.some.inj hget).symm
      · exact .inr (heq ▸ hget)
    · exact .inr (hother r heq ▸ hget)
  have hold : ∀ r < c.rings.size, r ≠ body := fun r hr => Nat.ne_of_lt (Nat.lt_of_lt_of_le hr hbody)
  refine { h with
    grows := { h.grows with
      rings := hsize ▸ h.grows.rings
      tip := fun r hr => hother r (hold r hr) ▸ h.grows.tip r hr
      get := fun r hr => hother r (hold r hr) ▸ h.grows.get r hr }
    held := ⟨h.held.tail, h.held.lastSealed, hsize ▸ h.held.body⟩
    entries := fun r hr i ref' hget => ?_
    apart := fun r hr i hget => ?_
    next := ?_ }
  · match hread r (hsize ▸ hr) i ref' hget with
    | .inl heq => exact heq ▸ href
    | .inr hget => exact h.entries r (hsize ▸ hr) i ref' hget
  · match hread r (hsize ▸ hr) i _ hget with
    | .inl heq => exact hne heq.symm
    | .inr hget => exact h.apart r (hsize ▸ hr) i hget
  · rw [hself, AtomicRing.tip_replace]
    exact h.next

theorem Entries.newBucket (h : c.Entries) (b : Bucket) : (c.newBucket b).2.Entries :=
  fun r hr i ref hget => Nat.lt_of_lt_of_le (h r hr i ref hget) (Grows.newBucket c b).size

theorem applyEdit_spec (h : Edited c body rolled) {edit : Nat × List (Nat × Bool)}
    (hedit : c.Hot edit.1 ∨ c.rings.size ≤ body) :
    Edited c body (applyEdit body rolled edit) ∧
      (edit.1 = c.snapshot.hotZone.tailBucket ∨ c.buckets.size ≤ rolled.1.tail →
        c.buckets.size ≤ (applyEdit body rolled edit).1.tail) := by
  obtain ⟨hot, m⟩ := rolled
  have hgrows : ∀ b, Grows c (m.newBucket b).2 := fun b => h.grows.trans (.newBucket m b)
  have hsize : ∀ b, (m.newBucket b).2.buckets.size = m.buckets.size + 1 := fun b => Heap.size_alloc
  have hnew : ∀ b, m.buckets.size < (m.newBucket b).2.buckets.size := fun b => by
    rw [hsize]
    exact Nat.lt_succ_self _
  rw [applyEdit]
  dsimp only
  split
  · next htail =>
    refine ⟨⟨hgrows _, ⟨hnew _, ?_, h.held.body⟩, h.entries.newBucket _, ?_, ?_, h.tailBucket, .inr ?_,
      h.next⟩, fun _ => h.grows.size⟩
    · exact Nat.lt_trans h.held.lastSealed (hnew _)
    · exact h.entries.apart (Nat.le_refl _)
    · exact Nat.ne_of_lt h.held.lastSealed
    · exact h.grows.size
  · next htail =>
    have hother : edit.1 = c.snapshot.hotZone.tailBucket ∨ c.buckets.size ≤ hot.tail →
        c.buckets.size ≤ hot.tail := by
      intro hor
      exact hor.resolve_left fun heq => htail (heq.trans h.tailBucket.symm)
    split
    · next hsealed =>
      refine ⟨⟨hgrows _, ⟨?_, hnew _, h.held.body⟩, h.entries.newBucket _, h.apart, ?_, h.tailBucket,
        h.tail, h.next⟩, hother⟩
      · exact Nat.lt_trans h.held.tail (hnew _)
      · exact (Nat.ne_of_lt h.held.tail).symm
    · next hsealed =>
      split
      · next sealed hget =>
        have hbody : c.rings.size ≤ body := by
          refine hedit.resolve_left fun hhot => ?_
          rw [Hot, ← h.tailBucket] at hhot
          exact hhot.elim htail hsealed
        have hcopy : ∀ b, Edited c body (hot, (m.newBucket b).2) := fun b =>
          { h with
            grows := hgrows b
            held := ⟨Nat.lt_trans h.held.tail (hnew b), Nat.lt_trans h.held.lastSealed (hnew b),
              h.held.body⟩
            entries := h.entries.newBucket b }
        exact ⟨(hcopy _).replace hbody (hnew _) (Nat.ne_of_lt h.held.tail).symm, hother⟩
      · exact ⟨h, hother⟩

theorem foldl_applyEdit_spec {l : List (Nat × List (Nat × Bool))} (h : Edited c body rolled)
    (hedits : ∀ edit ∈ l, c.Hot edit.1 ∨ c.rings.size ≤ body) :
    Edited c body (l.foldl (applyEdit body) rolled) ∧
      (c.snapshot.hotZone.tailBucket ∈ l.map Prod.fst ∨ c.buckets.size ≤ rolled.1.tail →
        c.buckets.size ≤ (l.foldl (applyEdit body) rolled).1.tail) := by
  induction l generalizing rolled with
  | nil => exact ⟨h, fun hor => hor.resolve_left List.not_mem_nil⟩
  | cons edit l ih =>
    have ⟨hfirst, hnew⟩ := applyEdit_spec h (hedits edit List.mem_cons_self)
    have ⟨hrest, hnew'⟩ := ih hfirst fun e he => hedits e (List.mem_cons_of_mem _ he)
    refine ⟨hrest, fun hor => hnew' ?_⟩
    match hor with
    | .inr hle => exact .inr (hnew (.inr hle))
    | .inl hmem =>
      match List.mem_cons.mp hmem with
      | .inl heq => exact .inr (hnew (.inl heq.symm))
      | .inr hmem => exact .inl hmem

/-- The buckets edited are those of the ids taken back. -/
theorem mem_edits {newTip tip bucket : Nat} :
    bucket ∈ (edits newTip tip).map Prod.fst ↔
      ∃ id, newTip < id ∧ id ≤ tip ∧ Bucket.locate id = bucket := by
  simp only [edits, List.map_map, Function.comp_def, List.map_id', List.mem_dedup, List.mem_map,
    List.mem_range'_1]
  constructor
  · intro ⟨id, hid, hlocate⟩
    exact ⟨id, by omega, by omega, hlocate⟩
  · intro ⟨id, hlt, hle, hlocate⟩
    exact ⟨id, by omega, hlocate⟩

end edits

theorem Entries.newRing (h : c.Entries) {r : AtomicRing Nat}
    (hr : ∀ i ref, r.get i = some ref → ref < c.buckets.size) : (c.newRing r).2.Entries := by
  intro k hk i ref hget
  have hsize : (c.newRing r).2.rings.size = c.rings.size + 1 := Heap.size_alloc
  by_cases hold : k < c.rings.size
  · rw [ring, show (c.newRing r).2.rings.read k = c.rings.read k from Heap.read_alloc_of_lt hold] at hget
    exact h k hold i ref hget
  · have hk' : k = c.rings.size := by omega
    rw [ring, hk', show (c.newRing r).2.rings.read c.rings.size = r from Heap.read_alloc_self] at hget
    exact hr i ref hget

theorem rollForward_self {debug : Bool} {hot : HotZone} {body : Nat} :
    c.rollForward debug hot hot.tailBucket body = some (hot, c) := by
  rw [rollForward, if_neg (fun h => Nat.lt_irrefl _ h.2), if_pos rfl]

end CanonicalChain

end Vprogs.Canonical
