import Vprogs.Canonical.Growth

/-!
The layout as one row of buckets. Which of them are hot and which are sealed does not
matter to what they hold: advancing the hot zone moves buckets, an append sets a bit, a
rollback clears the bits it takes back, and a finalization drops buckets off the front.
-/
namespace Vprogs.Canonical

namespace Bucket

@[simp] theorem get_empty (bit : Nat) : ({} : Bucket).get bit = false := by
  simp [get]

theorem get_clear {b : Bucket} {i j : Nat} (hj : j < CAPACITY) :
    (b.clear i).get j = (b.get j && decide (i ≠ j)) := by
  simp [get, clear, hj, eq_comm]

/-- Edits that clear bits. -/
theorem get_edited {b : Bucket} {bits : List Nat} {j : Nat} (hj : j < CAPACITY) :
    (b.edited (bits.map fun bit => (bit, false))).get j = (b.get j && decide (j ∉ bits)) := by
  induction bits generalizing b with
  | nil => simp [edited]
  | cons i bits ih =>
    change ((b.clear i).edited (bits.map fun bit => (bit, false))).get j = _
    rw [ih, get_clear hj]
    by_cases hi : j = i <;> by_cases hbits : j ∈ bits <;> simp [hi, hbits, eq_comm]

end Bucket

namespace CanonicalChain

variable {c c' : CanonicalChain} {hot hot' : HotZone} {body : Nat}

/-- What the hot zone holds for a bucket number; nothing is set beyond it. -/
def hotBucket (c : CanonicalChain) (hot : HotZone) (b : Nat) : Bucket :=
  if b = hot.tailBucket then c.bucket hot.tail
  else if 1 ≤ hot.tailBucket ∧ b = hot.tailBucket - 1 then c.bucket hot.lastSealed
  else {}

/-- The bucket of a number, `none` once it is pruned. -/
def layout (c : CanonicalChain) (hot : HotZone) (body : Nat) (b : Nat) : Option Bucket :=
  if b < (c.ring body).tip then ((c.ring body).get b).map c.bucket else some (c.hotBucket hot b)

theorem layout_of_le {b : Nat} (h : (c.ring body).tip ≤ b) :
    c.layout hot body b = some (c.hotBucket hot b) := by
  rw [layout, if_neg (Nat.not_lt.mpr h)]

theorem Grows.hotBucket (hgrows : Grows c c') (held : c.Held hot body) (b : Nat) :
    c'.hotBucket hot b = c.hotBucket hot b := by
  rw [CanonicalChain.hotBucket, CanonicalChain.hotBucket, hgrows.bucket _ held.tail,
    hgrows.bucket _ held.lastSealed]

theorem Grows.layout_of_lt (hgrows : Grows c c') (held : c.Held hot body) (entries : c.Entries) {b : Nat}
    (hb : b < (c.ring body).tip) : c'.layout hot' body b = c.layout hot body b := by
  rw [layout, layout, if_pos hb, if_pos (Nat.lt_of_lt_of_le hb (hgrows.tip _ held.body)),
    hgrows.get _ held.body b hb]
  cases hget : (c.ring body).get b with
  | none => rfl
  | some ref => exact congrArg some (hgrows.bucket ref (entries _ held.body b ref hget))

/-! ### The hot zone advances -/

theorem bucket_bucketAt (c : CanonicalChain) (hot : HotZone) (idx : Nat) :
    (c.bucketAt hot idx).2.bucket (c.bucketAt hot idx).1 = c.hotBucket hot idx := by
  rw [bucketAt, hotBucket]
  split
  · rfl
  · split
    · rfl
    · exact Heap.read_alloc_self

theorem layout_sealBehind (count : Nat) (held : c.Held hot body) (entries : c.Entries) (b : Nat) :
    (sealBehind hot body count c).layout hot body b = c.layout hot body b := by
  induction count generalizing c with
  | zero => rfl
  | succ count ih =>
    have hsealed : Grows c (c.bucketAt hot (c.ring body).nextIndex).2 := bucketAt_grows _
    have hbucket := bucket_bucketAt c hot (c.ring body).nextIndex
    have hrings : (c.bucketAt hot (c.ring body).nextIndex).2.ring body = c.ring body :=
      congrArg (Heap.read · body) (bucketAt_rings _)
    have held' := held.grows hsealed
    have hpush := Grows.push (c.bucketAt hot (c.ring body).nextIndex).2 held'.body
      (c.bucketAt hot (c.ring body).nextIndex).1
    have hentries := (entries.bucketAt hot (c.ring body).nextIndex).push held'.body
      (bucketAt_lt held _)
    have hgrows := hsealed.trans hpush
    have hstep : sealBehind hot body (count + 1) c = sealBehind hot body count
        ((c.bucketAt hot (c.ring body).nextIndex).2.setRing body
          (((c.bucketAt hot (c.ring body).nextIndex).2.ring body).push
            (c.bucketAt hot (c.ring body).nextIndex).1)) := rfl
    rw [hstep, ih (held.grows hgrows) hentries]
    generalize c.bucketAt hot (c.ring body).nextIndex = sealed at *
    have hring : (sealed.2.setRing body ((sealed.2.ring body).push sealed.1)).ring body =
        (c.ring body).push sealed.1 := (Heap.read_write_self held'.body).trans (by rw [hrings])
    by_cases hlt : b < (c.ring body).tip
    · exact hgrows.layout_of_lt held entries hlt
    · rw [layout, layout, if_neg hlt, hring]
      by_cases heq : b = (c.ring body).tip
      · have hnext : b < ((c.ring body).push sealed.1).tip := heq ▸ Nat.lt_succ_self _
        rw [if_pos hnext, AtomicRing.get_push, if_pos heq, heq]
        exact congrArg some hbucket
      · have hnext : ¬ b < ((c.ring body).push sealed.1).tip := by
          change ¬ b < (c.ring body).tip + 1
          omega
        rw [if_neg hnext, hgrows.hotBucket held]

theorem layout_rollForward {debug : Bool} {target : Nat} (held : c.Held hot body) (entries : c.Entries)
    (hnext : (c.ring body).tip = hot.tailBucket - 1) (htarget : hot.tailBucket ≤ target)
    (h : c.rollForward debug hot target body = some (hot', c')) :
    (c'.ring body).tip = hot'.tailBucket - 1 ∧ ∀ b, c'.layout hot' body b = c.layout hot body b := by
  rw [rollForward, if_neg (fun h => Nat.not_lt.mpr htarget h.2)] at h
  split at h
  · cases h
    exact ⟨hnext, fun _ => rfl⟩
  next hne =>
  cases h
  have hlayout := layout_sealBehind (target - 1 - (c.ring body).nextIndex) held entries
  obtain ⟨hgrows, hentries, htip⟩ := sealBehind_spec (target - 1 - (c.ring body).nextIndex) held entries
  generalize sealBehind hot body (target - 1 - (c.ring body).nextIndex) c = m at *
  rw [AtomicRing.nextIndex] at htip
  have hlast : Grows m (m.bucketAt hot (target - 1)).2 := bucketAt_grows _
  have hbucket := bucket_bucketAt m hot (target - 1)
  have hlt := bucketAt_lt (held.grows hgrows) (target - 1)
  have hrings : (m.bucketAt hot (target - 1)).2.ring body = m.ring body :=
    congrArg (Heap.read · body) (bucketAt_rings _)
  generalize m.bucketAt hot (target - 1) = sealed at *
  have htail := Grows.newBucket sealed.2 {}
  have hring : (sealed.2.newBucket {}).2.ring body = m.ring body := hrings
  refine ⟨?_, fun b => ?_⟩
  · rw [hring, htip]
    change _ = target - 1
    omega
  · rw [← hlayout b]
    have hcut : (m.ring body).tip = target - 1 := by omega
    by_cases hb : b < (m.ring body).tip
    · exact (hlast.trans htail).layout_of_lt (held.grows hgrows) hentries hb
    · rw [layout, layout, hring, if_neg hb, if_neg hb, CanonicalChain.hotBucket]
      refine congrArg some ?_
      by_cases hb' : b = target
      · have hempty : m.hotBucket hot b = {} := by
          rw [CanonicalChain.hotBucket, if_neg (by omega), if_neg (by omega)]
        rw [if_pos hb', hempty]
        exact Heap.read_alloc_self
      · rw [if_neg hb']
        split
        · next hb'' =>
          rw [htail.bucket _ hlt, hbucket, hb''.2]
        · next hb'' =>
          rw [CanonicalChain.hotBucket, if_neg, if_neg]
          all_goals
            change ¬ (1 ≤ target ∧ b = target - 1) at hb''
            omega

/-! ### Bits are set and cleared -/

theorem layout_setBit (held : c.Held hot body) (apart : c.Apart hot.tail)
    (hne : hot.lastSealed ≠ hot.tail) (hnext : (c.ring body).tip = hot.tailBucket - 1) (bit b : Nat) :
    (c.setBit hot.tail bit).layout hot body b =
      if b = hot.tailBucket then (c.layout hot body b).map (·.set bit) else c.layout hot body b := by
  have hself : (c.setBit hot.tail bit).bucket hot.tail = (c.bucket hot.tail).set bit :=
    Heap.read_write_self held.tail
  have hother : ∀ ref, ref ≠ hot.tail → (c.setBit hot.tail bit).bucket ref = c.bucket ref :=
    fun ref href => Heap.read_write_of_ne href
  have hring : (c.setBit hot.tail bit).ring body = c.ring body := rfl
  by_cases hb : b < (c.ring body).tip
  · rw [layout, layout, hring, if_pos hb, if_pos hb, if_neg (by omega)]
    cases hget : (c.ring body).get b with
    | none => rfl
    | some ref =>
      have hapart : ref ≠ hot.tail := fun heq => apart _ held.body b (heq ▸ hget)
      exact congrArg some (hother ref hapart)
  · rw [layout, layout, hring, if_neg hb, if_neg hb, hotBucket, hotBucket, hself, hother _ hne]
    split <;> rfl

/-- Bits of the layout, for edits of buckets up to the tail. -/
theorem layout_applyEdit {rolled : HotZone × CanonicalChain} {edit : Nat × List (Nat × Bool)}
    (h : Edited c body rolled) (hnext : (rolled.2.ring body).tip = rolled.1.tailBucket - 1)
    (hedit : edit.1 ≤ rolled.1.tailBucket) (b : Nat) :
    (applyEdit body rolled edit).2.layout (applyEdit body rolled edit).1 body b =
      if b = edit.1 then (rolled.2.layout rolled.1 body b).map (·.edited edit.2)
      else rolled.2.layout rolled.1 body b := by
  obtain ⟨hot, m⟩ := rolled
  have hcopy : ∀ bucket, Grows m (m.newBucket bucket).2 := Grows.newBucket m
  have hnew : ∀ bucket, (m.newBucket bucket).2.bucket (m.newBucket bucket).1 = bucket :=
    fun bucket => Heap.read_alloc_self
  have hright : ∀ bucket hot', (m.ring body).tip ≤ b → (m.newBucket bucket).2.layout hot' body b =
      some ((m.newBucket bucket).2.hotBucket hot' b) := fun _ _ hb => layout_of_le hb
  rw [applyEdit]
  dsimp only at hnext hedit ⊢
  split
  · next htail =>
    by_cases hb : b < (m.ring body).tip
    · rw [if_neg (by omega)]
      exact (hcopy _).layout_of_lt h.held h.entries hb
    · refine (hright _ _ (Nat.not_lt.mp hb)).trans ?_
      rw [layout_of_le (Nat.not_lt.mp hb), hotBucket, hotBucket, hnew,
        (hcopy _).bucket _ h.held.lastSealed, htail]
      split <;> rfl
  next htail =>
  split
  · next hsealed =>
    by_cases hb : b < (m.ring body).tip
    · rw [if_neg (by omega)]
      exact (hcopy _).layout_of_lt h.held h.entries hb
    · refine (hright _ _ (Nat.not_lt.mp hb)).trans ?_
      rw [layout_of_le (Nat.not_lt.mp hb), hotBucket, hotBucket, hnew, (hcopy _).bucket _ h.held.tail]
      by_cases hb' : b = hot.tailBucket
      · rw [if_pos hb', if_pos hb', if_neg (by omega)]
      · rw [if_neg hb', if_neg hb', hsealed.2]
        split
        · next heq => rw [if_pos heq.2]; rfl
        · next heq => rw [if_neg fun hlast => heq ⟨hsealed.1, hlast⟩]
  next hsealed =>
  have hin : edit.1 < (m.ring body).tip := by omega
  split
  · next sealed hget =>
    have hring : ((m.newBucket ((m.bucket sealed).edited edit.2)).2.setRing body
        (((m.newBucket ((m.bucket sealed).edited edit.2)).2.ring body).replace edit.1
          (m.newBucket ((m.bucket sealed).edited edit.2)).1)).ring body =
        (m.ring body).replace edit.1 (m.newBucket ((m.bucket sealed).edited edit.2)).1 :=
      Heap.read_write_self h.held.body
    have hbuckets : ∀ ref < m.buckets.size,
        ((m.newBucket ((m.bucket sealed).edited edit.2)).2.setRing body
          (((m.newBucket ((m.bucket sealed).edited edit.2)).2.ring body).replace edit.1
            (m.newBucket ((m.bucket sealed).edited edit.2)).1)).bucket ref = m.bucket ref :=
      fun ref href => (hcopy _).bucket ref href
    have hlive := AtomicRing.get_eq_some_iff.mp hget
    by_cases hb : b < (m.ring body).tip
    · rw [layout, layout, hring, AtomicRing.tip_replace, if_pos hb, if_pos hb, AtomicRing.get_replace]
      by_cases heq : b = edit.1
      · rw [if_pos ⟨heq, hlive.1, hlive.2.1⟩, if_pos heq, heq, hget]
        exact congrArg some (hnew _)
      · rw [if_neg (fun hand => heq hand.1), if_neg heq]
        cases hget' : (m.ring body).get b with
        | none => rfl
        | some ref => exact congrArg some (hbuckets ref (h.entries _ h.held.body b ref hget'))
    · rw [layout, layout, hring, AtomicRing.tip_replace, if_neg hb, if_neg hb, if_neg (by omega),
        hotBucket, hotBucket, hbuckets _ h.held.tail, hbuckets _ h.held.lastSealed]
  · next hget =>
    split
    · next heq =>
      rw [layout, heq, if_pos hin, hget]
      rfl
    · rfl

theorem layout_foldl_applyEdit {rolled : HotZone × CanonicalChain} {l : List (Nat × List (Nat × Bool))}
    (h : Edited c body rolled) (hnext : (rolled.2.ring body).tip = rolled.1.tailBucket - 1)
    (hbody : ∀ edit ∈ l, c.Hot edit.1 ∨ c.rings.size ≤ body)
    (hedits : ∀ edit ∈ l, edit.1 ≤ rolled.1.tailBucket) (hnodup : (l.map Prod.fst).Nodup) (b : Nat) :
    (l.foldl (applyEdit body) rolled).2.layout (l.foldl (applyEdit body) rolled).1 body b =
      match l.lookup b with
      | some ops => (rolled.2.layout rolled.1 body b).map (·.edited ops)
      | none => rolled.2.layout rolled.1 body b := by
  induction l generalizing rolled with
  | nil => rfl
  | cons edit l ih =>
    have ⟨hfirst, _⟩ := applyEdit_spec h (hbody edit List.mem_cons_self)
    have htail : (applyEdit body rolled edit).1.tailBucket = rolled.1.tailBucket :=
      hfirst.tailBucket.trans h.tailBucket.symm
    have hnext' : ((applyEdit body rolled edit).2.ring body).tip =
        (applyEdit body rolled edit).1.tailBucket - 1 := by
      rw [hfirst.next, htail, ← hnext, h.next]
    have ⟨hnot, hrest⟩ := List.nodup_cons.mp hnodup
    rw [List.foldl_cons, ih hfirst hnext' (fun e he => hbody e (List.mem_cons_of_mem _ he))
      (fun e he => htail ▸ hedits e (List.mem_cons_of_mem _ he)) hrest,
      layout_applyEdit h hnext (hedits edit List.mem_cons_self), List.lookup_cons]
    by_cases heq : b = edit.1
    · have hnone : l.lookup b = none := by
        rw [List.lookup_eq_none_iff]
        intro e he
        simp only [bne_iff_ne, ne_eq]
        intro hbe
        exact hnot (heq ▸ hbe ▸ List.mem_map_of_mem he)
      rw [hnone, heq, if_pos rfl, beq_self_eq_true]
    · rw [beq_false_of_ne heq, if_neg heq]

end CanonicalChain

end Vprogs.Canonical
