import Vprogs.Canonical.Bits

/-!
The bit oracle against the chain as a set of ids. Every operation keeps them in step, in
either build, as long as an append does not move the hot zone back.
-/
namespace Vprogs.Canonical

open Scheduler (Chain)

/-- The bits of the oracle are those of the chain's ids, up to the finalized buckets. -/
structure Stands (c : CanonicalChain) (k : Chain) : Prop where
  laid : c.Laid
  tailBucket : c.snapshot.hotZone.tailBucket = Bucket.locate k.seen
  tip : c.tip = k.tip
  ids_le : ∀ i ∈ k.ids, i ≤ k.tip
  dropped_le : k.dropped ≤ Bucket.locate k.seen
  bit : ∀ i, 0 < i → c.bitAt i = if Bucket.locate i < k.dropped then none else some (decide (i ∈ k.ids))

theorem stands_empty : Stands .empty {} where
  laid := CanonicalChain.laid_empty
  tailBucket := rfl
  tip := rfl
  ids_le _ h := by cases h
  dropped_le := Nat.zero_le _
  bit i _ := CanonicalChain.bitAt_empty

namespace Stands

variable {c c' : CanonicalChain} {k : Chain} {debug : Bool} {id newTip : Nat}

theorem isCanonical (h : Stands c k) : c.isCanonical c.snapshot = k.isCanonical := by
  funext i
  rw [h.laid.isCanonical_eq, h.tip, Bool.eq_iff_iff, Chain.isCanonical_iff, Bool.and_eq_true, decide_eq_true_iff,
    and_assoc]
  refine and_congr_right fun hpos => and_congr_right fun _ => ?_
  rw [h.bit i hpos]
  split
  · next hdropped => exact iff_of_true rfl (.inl hdropped)
  · next hkept => rw [Option.getD_some, decide_eq_true_iff, or_iff_right hkept]

theorem append (h : Stands c k) (htip : k.tip < id) (hforward : Bucket.locate k.seen ≤ Bucket.locate id)
    (hstep : c.append debug id = some c') :
    Stands c' { k with tip := id, ids := k.ids ++ [id], seen := max k.seen id } := by
  obtain ⟨hlaid, htip', htail, hbits⟩ := CanonicalChain.append_bitAt h.laid (h.tailBucket ▸ hforward) hstep
  have hseen : Bucket.locate (max k.seen id) = Bucket.locate id := by
    rcases Nat.le_total k.seen id with hle | hle
    · rw [Nat.max_eq_right hle]
    · rw [Nat.max_eq_left hle]
      exact Nat.le_antisymm hforward (CanonicalChain.locate_mono hle)
  have hdropped := h.dropped_le
  refine ⟨hlaid, htail.trans hseen.symm, htip', fun i hi => ?_, ?_, fun i hi => ?_⟩
  · rcases List.mem_append.mp hi with hold | hnew
    · exact Nat.le_of_lt (Nat.lt_of_le_of_lt (h.ids_le i hold) htip)
    · exact Nat.le_of_eq (List.mem_singleton.mp hnew)
  · change k.dropped ≤ Bucket.locate (max k.seen id)
    omega
  · rw [hbits i hi]
    by_cases hid : i = id
    · rw [if_pos hid, hid, if_neg (Nat.not_lt.mpr (Nat.le_trans hdropped hforward)), decide_eq_true (by simp)]
    · rw [if_neg hid, h.bit i hi]
      simp [hid]

theorem rollback (h : Stands c k) (hstep : c.rollback debug newTip = some c') : Stands c' (k.rollback newTip) := by
  obtain ⟨hlaid, htip, htail, hbits⟩ := CanonicalChain.rollback_bitAt h.laid hstep
  refine ⟨hlaid, htail.trans h.tailBucket, htip, fun i hi => ?_, h.dropped_le, fun i hi => ?_⟩
  · exact of_decide_eq_true (List.mem_filter.mp hi).2
  · rw [hbits i hi, h.bit i hi]
    change _ = if Bucket.locate i < k.dropped then none else some (decide (i ∈ k.ids.filter _))
    split
    · rfl
    · rw [Option.map_some, Option.some.injEq, Bool.eq_iff_iff, Bool.and_eq_true, decide_eq_true_iff,
        decide_eq_true_iff, decide_eq_true_iff, List.mem_filter, decide_eq_true_iff]
      refine and_congr_right fun hmem => ?_
      have hle := h.ids_le i hmem
      rw [h.tip]
      omega

theorem finalize (h : Stands c k) (below : Nat) : Stands (c.finalize below) (k.finalize below) := by
  obtain ⟨hlaid, hsnap, hbits⟩ := CanonicalChain.finalize_bitAt h.laid below
  have hdropped := h.dropped_le
  refine ⟨hlaid, by rw [hsnap]; exact h.tailBucket, ?_, h.ids_le, ?_, fun i hi => ?_⟩
  · rw [CanonicalChain.tip, hsnap]
    exact h.tip
  · change (if 1 < below then max k.dropped (min (Bucket.locate below) (Bucket.locate k.seen - 1))
      else k.dropped) ≤ Bucket.locate k.seen
    split <;> omega
  · rw [hbits, h.tailBucket, h.bit i hi]
    have hcut : Bucket.locate i < (k.finalize below).dropped ↔ Bucket.locate i < k.dropped ∨
        1 < below ∧ Bucket.locate i < Bucket.locate below ∧ Bucket.locate i + 1 < Bucket.locate k.seen := by
      change Bucket.locate i < (if 1 < below then _ else _) ↔ _
      split <;> omega
    simp only [hcut]
    change _ = if _ then none else some (decide (i ∈ k.ids))
    split
    · next hnew => rw [if_pos (.inr hnew)]
    · next hold => simp only [or_iff_left hold]

end Stands

end Vprogs.Canonical
