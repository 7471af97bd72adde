import Vprogs.Canonical.Layout
import Vprogs.Canonical.Stable

/-!
The bit of an id in the current layout, and what each operation does to it. A bit that
is gone with its bucket reads as canonical.
-/
namespace Vprogs.Canonical

namespace CanonicalChain

variable {c c' : CanonicalChain} {debug : Bool} {id newTip : Nat}

/-- The bit of an id, `none` once its bucket is pruned. -/
def bitAt (c : CanonicalChain) (id : Nat) : Option Bool :=
  (c.layout c.snapshot.hotZone c.snapshot.body (Bucket.locate id)).map (·.get (Bucket.bit id))

/-- A chain whose ring ends right behind the hot zone. -/
structure Laid (c : CanonicalChain) : Prop where
  shared : c.Shared
  next : (c.ring c.snapshot.body).tip = c.snapshot.hotZone.tailBucket - 1

theorem Laid.reads (h : c.Laid) : c.Reads c.snapshot := h.shared.reads _ h.shared.current

theorem laid_empty : empty.Laid := ⟨shared_empty, rfl⟩

theorem Laid.isCanonical_eq (h : c.Laid) :
    c.isCanonical c.snapshot id =
      (decide (0 < id ∧ id ≤ c.tip) && (c.bitAt id).getD true) := by
  rw [isCanonical]
  split
  · next hout =>
    have hfalse : ¬ (0 < id ∧ id ≤ c.tip) := by
      change id = 0 ∨ c.tip < id at hout
      omega
    rw [decide_eq_false hfalse, Bool.false_and]
  next hin =>
  have hrange : 0 < id ∧ id ≤ c.tip := by
    change ¬ (id = 0 ∨ c.tip < id) at hin
    omega
  have hle := h.reads.located id hrange.1 hrange.2
  have hnext := h.next
  rw [decide_eq_true hrange, Bool.true_and, bitAt]
  split
  · next htail =>
    rw [layout_of_le (by omega), hotBucket, if_pos htail]
    rfl
  next htail =>
  split
  · next hsealed =>
    rw [layout_of_le (by omega), hotBucket, if_neg htail, if_pos hsealed]
    rfl
  next hsealed =>
  rw [layout, if_pos (by omega)]
  cases (c.ring c.snapshot.body).get (Bucket.locate id) <;> rfl

theorem bitAt_empty : empty.bitAt id = some false := by
  have hempty : ∀ b, empty.hotBucket empty.snapshot.hotZone b = {} := by
    intro b
    rw [hotBucket]
    split
    · rfl
    · split <;> rfl
  rw [bitAt, layout_of_le (Nat.zero_le _), hempty, Option.map_some, Bucket.get_empty]

/-! ### Append -/

theorem append_bitAt (h : c.Laid) (hforward : c.snapshot.hotZone.tailBucket ≤ Bucket.locate id)
    (hstep : c.append debug id = some c') :
    c'.Laid ∧ c'.tip = id ∧ c'.snapshot.hotZone.tailBucket = Bucket.locate id ∧
      ∀ j, 0 < j → c'.bitAt j = if j = id then some true else c.bitAt j := by
  obtain ⟨built, s, adv, hbuilt⟩ := append_advances h.shared hstep
  have hshared : c'.Shared := hbuilt ▸ (h.shared.publish adv).1
  rw [append] at hstep
  split at hstep
  case isFalse => cases hstep
  next htip =>
  obtain ⟨⟨hot, m⟩, hroll, heq⟩ := Option.map_eq_some_iff.mp hstep
  have held := h.reads.held
  have rolled := rollForward_spec held h.shared.entries h.shared.apart h.reads.sealed_ne hroll
  obtain ⟨hnext, hlayout⟩ := layout_rollForward held h.shared.entries h.next hforward hroll
  have hsnap : c'.snapshot = ⟨id, hot, c.snapshot.body⟩ := by
    rw [← heq]
    exact snapshot_publish _
  have hring : c'.ring c.snapshot.body = m.ring c.snapshot.body := by
    rw [← heq]
    rfl
  have htail : hot.tailBucket = Bucket.locate id := rolled.tailBucket
  refine ⟨⟨hshared, ?_⟩, ?_, ?_, fun j hj => ?_⟩
  · rw [hsnap, hring]
    exact hnext
  · rw [tip, hsnap]
  · rw [hsnap]
    exact htail
  · have hset := layout_setBit rolled.held rolled.apart rolled.sealed_ne hnext (Bucket.bit id)
      (Bucket.locate j)
    have hbit : c'.bitAt j = ((m.setBit hot.tail (Bucket.bit id)).layout hot c.snapshot.body
        (Bucket.locate j)).map (·.get (Bucket.bit j)) := by
      rw [bitAt, hsnap, ← heq]
      rfl
    rw [hbit, hset, bitAt, ← hlayout]
    by_cases hj' : j = id
    · rw [hj', if_pos htail.symm, if_pos rfl, layout_of_le (by omega)]
      simp [Bucket.get_set (Bucket.bit_lt id)]
    · rw [if_neg hj']
      split
      · next hlocate =>
        have hne : Bucket.bit id ≠ Bucket.bit j := fun hbits => hj'
          (Bucket.eq_of_bit_eq (by omega) hj (htail.symm.trans hlocate.symm) hbits).symm
        rw [Option.map_map]
        refine congrArg (Option.map · _) (funext fun b => ?_)
        simp [Bucket.get_set (Bucket.bit_lt j), hne]
      · rfl

theorem tip_append (hstep : c.append debug id = some c') : c'.tip = id := by
  rw [append] at hstep
  split at hstep
  · obtain ⟨rolled, _, heq⟩ := Option.map_eq_some_iff.mp hstep
    rw [← heq, tip, snapshot_publish]
  · cases hstep

/-- The assertion of `roll_forward`: without it, or on the way forward, an append goes through. -/
theorem append_isSome (debug : Bool) (htip : c.tip < id) :
    (c.append debug id).isSome = true ↔ ¬ (debug = true ∧ Bucket.locate id < c.snapshot.hotZone.tailBucket) := by
  rw [append, if_pos htip, Option.isSome_map, rollForward]
  split
  · next h => simp [h]
  · next h =>
    split <;> simpa using h

/-! ### Rollback -/

theorem lookup_graph {α β : Type} [BEq α] [LawfulBEq α] (f : α → β) (l : List α) (a : α) :
    (l.map fun x => (x, f x)).lookup a = if a ∈ l then some (f a) else none := by
  induction l with
  | nil => rfl
  | cons x l ih =>
    rw [List.map_cons, List.lookup_cons, ih]
    by_cases hx : a = x
    · rw [hx, beq_self_eq_true, if_pos List.mem_cons_self]
    · rw [beq_false_of_ne hx]
      simp [hx]

theorem nodup_edits (newTip tip : Nat) : ((edits newTip tip).map Prod.fst).Nodup := by
  simp only [edits, List.map_map, Function.comp_def, List.map_id']
  exact List.nodup_dedup _

/-- A bit is cleared if its id is taken back. -/
theorem get_edited_bit (newTip tip : Nat) {j : Nat} (hj : 0 < j) (b : Bucket) :
    (match (edits newTip tip).lookup (Bucket.locate j) with
      | some ops => b.edited ops
      | none => b).get (Bucket.bit j) = (b.get (Bucket.bit j) && decide (¬ (newTip < j ∧ j ≤ tip))) := by
  rw [edits, lookup_graph]
  have hmem : Bucket.bit j ∈ ((List.range' (newTip + 1) (tip - newTip)).filter fun id =>
      Bucket.locate id = Bucket.locate j).map Bucket.bit ↔ newTip < j ∧ j ≤ tip := by
    simp only [List.mem_map, List.mem_filter, List.mem_range'_1, decide_eq_true_eq]
    constructor
    · rintro ⟨i, ⟨hrange, hlocate⟩, hbit⟩
      have := Bucket.eq_of_bit_eq (by omega) hj hlocate hbit
      omega
    · intro hrange
      exact ⟨j, ⟨by omega, rfl⟩, rfl⟩
  split
  · next ops heq =>
    split at heq
    · cases heq
      have hops : ∀ l : List Nat, l.map (fun id => (Bucket.bit id, false)) =
          (l.map Bucket.bit).map fun bit => (bit, false) := fun l => by
        rw [List.map_map]
        rfl
      rw [hops, Bucket.get_edited (Bucket.bit_lt j)]
      simp only [hmem]
    · cases heq
  · next heq =>
    split at heq
    · cases heq
    · next hnot =>
      have hout : ¬ (newTip < j ∧ j ≤ tip) := by
        intro hrange
        refine hnot (List.mem_dedup.mpr (List.mem_map.mpr ⟨j, List.mem_range'_1.mpr ?_, rfl⟩))
        omega
      rw [decide_eq_true hout, Bool.and_true]

theorem rollback_isSome (debug : Bool) (hle : newTip ≤ c.tip) : ∃ c', c.rollback debug newTip = some c' := by
  rw [rollback, if_pos hle]
  dsimp only
  rw [rollForward_self]
  exact ⟨_, rfl⟩

theorem tip_rollback (hstep : c.rollback debug newTip = some c') : c'.tip = newTip := by
  rw [rollback] at hstep
  split at hstep
  · obtain ⟨rolled, _, heq⟩ := Option.map_eq_some_iff.mp hstep
    rw [← heq, tip, snapshot_publish]
  · cases hstep

theorem rollback_bitAt (h : c.Laid) (hstep : c.rollback debug newTip = some c') :
    c'.Laid ∧ c'.tip = newTip ∧
      c'.snapshot.hotZone.tailBucket = c.snapshot.hotZone.tailBucket ∧
      ∀ j, 0 < j → c'.bitAt j = (c.bitAt j).map (· && decide (¬ (newTip < j ∧ j ≤ c.tip))) := by
  have ⟨built, s, adv, hbuilt⟩ := rollback_advances h.shared hstep
  have hshared : c'.Shared := hbuilt ▸ (h.shared.publish adv).1
  have ⟨htip, body, m, hstart, hget, hhot, heq⟩ := rollback_eq h.shared hstep
  have ⟨hdone, _⟩ := foldl_applyEdit_spec hstart hhot
  have hnext : (m.ring body).tip = c.snapshot.hotZone.tailBucket - 1 := by rw [hstart.next, h.next]
  have hedits : ∀ edit ∈ edits newTip c.tip, edit.1 ≤ c.snapshot.hotZone.tailBucket := by
    intro edit hedit
    have ⟨id, hlt, hle, hlocate⟩ := mem_edits.mp (List.mem_map_of_mem hedit)
    exact hlocate ▸ h.reads.located id (by omega) hle
  have hlayout := layout_foldl_applyEdit hstart hnext hhot hedits (nodup_edits newTip c.tip)
  have hstart' : ∀ b, m.layout c.snapshot.hotZone body b =
      c.layout c.snapshot.hotZone c.snapshot.body b := by
    intro b
    rw [layout, layout, hstart.next, hget]
    split
    · cases hentry : (c.ring c.snapshot.body).get b with
      | none => rfl
      | some ref =>
        exact congrArg some (hstart.grows.bucket ref (h.shared.entries _ h.reads.held.body b ref hentry))
    · rw [hstart.grows.hotBucket h.reads.held]
  generalize hfold : (edits newTip c.tip).foldl (applyEdit body) (c.snapshot.hotZone, m) = done at *
  have hsnap : c'.snapshot = ⟨newTip, done.1, body⟩ := by
    rw [heq]
    exact snapshot_publish _
  refine ⟨⟨hshared, ?_⟩, by rw [tip, hsnap], by rw [hsnap]; exact hdone.tailBucket, fun j hj => ?_⟩
  · rw [hsnap, heq]
    change (done.2.ring body).tip = done.1.tailBucket - 1
    rw [hdone.next, hdone.tailBucket, h.next]
  · have hbit : c'.bitAt j = (done.2.layout done.1 body (Bucket.locate j)).map (·.get (Bucket.bit j)) := by
      rw [bitAt, hsnap, heq]
      rfl
    rw [hbit, hlayout, bitAt, ← hstart', Option.map_map]
    have hcleared := get_edited_bit newTip c.tip hj
    cases hlookup : (edits newTip c.tip).lookup (Bucket.locate j) with
    | some ops =>
      rw [hlookup] at hcleared
      dsimp only at hcleared ⊢
      rw [Option.map_map]
      exact congrArg (Option.map · _) (funext hcleared)
    | none =>
      rw [hlookup] at hcleared
      exact congrArg (Option.map · _) (funext hcleared)

/-! ### Finalization -/

theorem tip_finalize (below : Nat) : (c.finalize below).tip = c.tip := by
  unfold finalize
  split <;> rfl

theorem finalize_bitAt (h : c.Laid) (below : Nat) :
    (c.finalize below).Laid ∧ (c.finalize below).snapshot = c.snapshot ∧
      ∀ j, (c.finalize below).bitAt j =
        if 1 < below ∧ Bucket.locate j < Bucket.locate below ∧
          Bucket.locate j + 1 < c.snapshot.hotZone.tailBucket then none else c.bitAt j := by
  have hshared := (h.shared.finalize below).1
  have hnext := h.next
  by_cases hbelow : 1 < below
  · have hfin : c.finalize below = c.setRing c.snapshot.body
        ((c.ring c.snapshot.body).pruneBelow (Bucket.locate below)) := by
      rw [finalize, if_pos hbelow]
    have hsnap : (c.finalize below).snapshot = c.snapshot := by rw [hfin]; rfl
    have hring : (c.finalize below).ring c.snapshot.body =
        (c.ring c.snapshot.body).pruneBelow (Bucket.locate below) := by
      rw [hfin]
      exact Heap.read_write_self h.reads.held.body
    have hbucket : (c.finalize below).bucket = c.bucket := by rw [hfin]; rfl
    have htip : ((c.finalize below).ring c.snapshot.body).tip = (c.ring c.snapshot.body).tip := by
      rw [hring]
      rfl
    refine ⟨⟨hshared, by rw [hsnap, htip, hnext]⟩, hsnap, fun j => ?_⟩
    rw [bitAt, bitAt, hsnap, layout, layout, htip]
    by_cases hin : Bucket.locate j < (c.ring c.snapshot.body).tip
    · rw [if_pos hin, hring, AtomicRing.get_pruneBelow, hbucket, if_pos hin]
      by_cases hcut : Bucket.locate j < Bucket.locate below
      · rw [if_pos hcut, if_pos ⟨hbelow, hcut, by omega⟩]
        rfl
      · rw [if_neg hcut, if_neg fun h => hcut h.2.1]
    · rw [if_neg hin, if_neg hin, if_neg (by omega), hotBucket, hotBucket, hbucket]
  · have hfin : c.finalize below = c := by rw [finalize, if_neg hbelow]
    rw [hfin]
    exact ⟨h, rfl, fun j => (if_neg fun h => hbelow h.1).symm⟩

end CanonicalChain

end Vprogs.Canonical
