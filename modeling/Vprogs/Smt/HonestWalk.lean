import Vprogs.Smt.ProofHonest
import Vprogs.Smt.WriteSoundness

/-!
The verifier's walk over a proof that writes a plan out retraces the plan: it
never fails and it computes at every branch what the plan has there.
-/
namespace Vprogs.Smt

namespace Plan

variable {D T : Type}

theorem rows_pos (pl : Plan D) : 0 < pl.rows.length := by
  induction pl with
  | leaf row => simp [rows]
  | split l r ihl _ => rw [rows, List.length_append]; omega
  | beside n g child ih => exact ih

theorem Fits.depth {pl : Plan D} {rem : Nat} (h : pl.Fits rem) :
    ∀ row ∈ pl.rows, 256 - rem ≤ row.depth ∧ row.depth ≤ 256 := by
  induction pl generalizing rem with
  | leaf r =>
    intro row hrow
    unfold Fits at h
    rw [rows, List.mem_singleton] at hrow
    rw [hrow, h.1]
    omega
  | split l r ihl ihr =>
    cases rem with
    | zero => exact h.elim
    | succ rem =>
      intro row hrow
      rcases List.mem_append.mp hrow with hrow | hrow
      · have := ihl h.1 row hrow
        omega
      · have := ihr h.2.1 row hrow
        omega
  | beside n g child ih =>
    cases rem with
    | zero => exact h.elim
    | succ rem =>
      intro row hrow
      have := ih h.1 row hrow
      omega

/-- What a walk computes over a plan whose rows start at a position. -/
def fold (s : Summarizer D T) (f : Nat → T) : Nat → Plan D → T
  | start, .leaf _ => f start
  | start, .split l r => s.both (fold s f start l) (fold s f (start + l.rows.length) r)
  | start, .beside n g child => s.besideSibling (fold s f start child) n g

end Plan

namespace Proof

variable {D T : Type} {p : Proof D} {pl l r : Plan D} {start rem : Nat} {c : Cursor}

/-- The tables continue with a plan from a leaf position and a cursor. -/
structure Carries (p : Proof D) (pl : Plan D) (start : Nat) (c : Cursor) : Prop where
  rows : ∀ (j : Nat) row, pl.rows[j]? = some row →
    ∃ leaf, p.leaves[start + j]? = some leaf ∧ ProofBuilder.LeafOf p.keys leaf row
  siblings : ∀ (j : Nat) n, pl.siblings[j]? = some n → p.siblings[c.siblingIdx + j]? = some n
  bits : ∀ (j : Nat) b, pl.bits[j]? = some b → getLsb p.topology (c.topoBit + j) = b

/-- The cursor behind a plan. -/
def advance (c : Cursor) (pl : Plan D) : Cursor :=
  ⟨c.siblingIdx + pl.siblings.length, c.topoBit + pl.bits.length⟩

theorem Honest.carries {keys : List Key} (h : p.Honest keys pl) : p.Carries pl 0 ⟨0, 0⟩ where
  rows j row hrow := by
    rw [Nat.zero_add]
    exact exists_of_forall₂ h.leaves hrow
  siblings j n hn := by
    rw [Nat.zero_add, h.siblings, hn]
  bits j b hb := by
    rw [Nat.zero_add, h.topology, List.getD_eq_getElem?_getD, hb]
    rfl

theorem getElem?_append_add {α : Type} {xs ys : List α} {j : Nat} {y : α} (h : ys[j]? = some y) :
    (xs ++ ys)[xs.length + j]? = some y := by
  rw [List.getElem?_append_right (by omega), Nat.add_sub_cancel_left, h]

theorem getElem?_append_of_some {α : Type} {xs ys : List α} {j : Nat} {x : α} (h : xs[j]? = some x) :
    (xs ++ ys)[j]? = some x := by
  rw [List.getElem?_append_left (List.getElem?_eq_some_iff.mp h).1, h]

theorem Carries.left (h : p.Carries (.split l r) start c) :
    p.Carries l start { c with topoBit := c.topoBit + 1 } where
  rows j row hrow := h.rows j row (getElem?_append_of_some hrow)
  siblings j n hn := h.siblings j n (getElem?_append_of_some hn)
  bits j b hb := by
    have := h.bits (j + 1) b (getElem?_append_of_some hb)
    rwa [show c.topoBit + 1 + j = c.topoBit + (j + 1) by omega]

theorem Carries.right (h : p.Carries (.split l r) start c) :
    p.Carries r (start + l.rows.length) (advance { c with topoBit := c.topoBit + 1 } l) where
  rows j row hrow := by
    rw [Nat.add_assoc]
    exact h.rows _ row (getElem?_append_add hrow)
  siblings j n hn := by
    rw [advance, Nat.add_assoc]
    exact h.siblings _ n (getElem?_append_add hn)
  bits j b hb := by
    have hb' : (l.bits ++ r.bits)[l.bits.length + j]? = some b := getElem?_append_add hb
    have := h.bits (l.bits.length + j + 1) b hb'
    rwa [advance, show c.topoBit + 1 + l.bits.length + j = c.topoBit + (l.bits.length + j + 1) by omega]

theorem Carries.child {n : HashedNode D} {g : Bool} (h : p.Carries (.beside n g pl) start c) :
    p.Carries pl start ⟨c.siblingIdx + 1, c.topoBit + 1⟩ where
  rows := h.rows
  siblings j m hm := by
    have := h.siblings (j + 1) m hm
    rwa [show c.siblingIdx + 1 + j = c.siblingIdx + (j + 1) by omega]
  bits j b hb := by
    have := h.bits (j + 1) b hb
    rwa [show c.topoBit + 1 + j = c.topoBit + (j + 1) by omega]

/-- The bit a carried row branches with. -/
theorem Carries.leafBit (h : p.Carries pl start c) {j : Nat} {row : Row D} (hrow : pl.rows[j]? = some row)
    (level : Nat) : p.leafBit (start + j) level = .ok (row.key.getMsb level) := by
  have ⟨leaf, hleaf, hof⟩ := h.rows j row hrow
  unfold Proof.leafBit
  rw [hleaf]
  refine ok_bind_iff.mpr ⟨leaf, rfl, ?_⟩
  rw [hof.2.2]
  rfl

/-- Whether the walk stops at a range of carried rows. -/
theorem Carries.atShortcutDepth (h : p.Carries pl start c) {level : Nat}
    (deep : ∀ row ∈ pl.rows, level ≤ row.depth) :
    p.atShortcutDepth start (start + pl.rows.length) level =
      .ok (match pl.rows with
        | [row] => level == row.depth
        | _ => false) := by
  unfold Proof.atShortcutDepth
  rw [Nat.add_sub_cancel_left]
  match hrows : pl.rows with
  | [] => rfl
  | [row] =>
    have ⟨leaf, hleaf, hof⟩ := h.rows 0 row (by rw [hrows]; rfl)
    have hle := deep row (by rw [hrows]; simp)
    rw [if_neg (by simp)]
    refine ok_bind_iff.mpr ⟨leaf, by rw [Nat.add_zero] at hleaf; rw [hleaf]; rfl, ?_⟩
    rw [if_neg (by rw [hof.1]; omega), hof.1]
    rfl
  | _ :: _ :: _ => rw [if_pos (by simp)]; rfl

theorem Carries.splitPoint (h : p.Carries (.split l r) start c) {level : Nat}
    (hl : ∀ row ∈ l.rows, row.key.getMsb level = false) (hr : ∀ row ∈ r.rows, row.key.getMsb level = true) :
    p.splitPoint start (start + (Plan.split l r).rows.length) level =
      .ok (start + l.rows.length) := by
  have bits : ∀ i < (Plan.split l r).rows.length,
      (do let bit ← p.leafBit (start + i) level; pure !bit : CodecResult Bool) =
        pure (decide (i < l.rows.length)) := by
    intro i hi
    have ⟨row, hrow⟩ : ∃ row, (Plan.split l r).rows[i]? = some row :=
      ⟨_, List.getElem?_eq_getElem hi⟩
    refine ok_bind_iff.mpr ⟨_, h.leafBit hrow level, ?_⟩
    rw [Plan.rows, List.getElem?_append] at hrow
    split at hrow
    · next hlt => rw [hl row (List.mem_of_getElem? hrow), decide_eq_true hlt]; rfl
    · next hge => rw [hr row (List.mem_of_getElem? hrow), decide_eq_false hge]; rfl
  unfold Proof.splitPoint
  rw [Nat.add_sub_cancel_left, partitionPointM_eq (by rw [Plan.rows, List.length_append]; omega) bits]
  rfl

/-- The walk over a carried plan. -/
theorem traverse_plan {s : Summarizer D T} {f : Nat → T} (h : p.Carries pl start c) (fits : pl.Fits rem)
    (hbound : rem ≤ 256) (hleaf : ∀ j < pl.rows.length, s.leafHashFn (start + j) = .ok (f (start + j))) :
    p.traverse s rem start (start + pl.rows.length) (256 - rem) c =
      .ok (pl.fold s f start, advance c pl) := by
  induction pl generalizing rem start c with
  | leaf row =>
    unfold Plan.Fits at fits
    refine traverse_eq_ok.mpr (.inl ⟨.inr ⟨by simp [Plan.rows], ?_, ?_⟩, rfl⟩)
    · have deep : ∀ r ∈ (Plan.leaf row).rows, 256 - rem ≤ r.depth := by
        intro r hr
        rw [Plan.rows, List.mem_singleton] at hr
        rw [hr, fits.1]
      rw [h.atShortcutDepth deep]
      simp [Plan.rows, fits.1]
    · have := hleaf 0 (by simp [Plan.rows])
      exact this
  | split l r ihl ihr =>
    cases rem with
    | zero => exact fits.elim
    | succ rem =>
      have deep : ∀ row ∈ (Plan.split l r).rows, 256 - (rem + 1) ≤ row.depth :=
        fun row hrow => (fits.depth row hrow).1
      obtain ⟨fitsL, fitsR, bitL, bitR⟩ := fits
      have hl := l.rows_pos
      have hr := r.rows_pos
      have hlen : (Plan.split l r).rows.length = l.rows.length + r.rows.length := by
        rw [Plan.rows, List.length_append]
      have two : 2 ≤ (Plan.split l r).rows.length := by omega
      have hlevel : 256 - (rem + 1) + 1 = 256 - rem := by omega
      have hbit : 255 - rem = 256 - (rem + 1) := by omega
      rw [hbit] at bitL bitR
      refine traverse_eq_ok.mpr (.inr ⟨⟨by omega, ?_, by unfold DEPTH; omega⟩, rem, rfl, .inl
        ⟨h.bits 0 true rfl, start + l.rows.length, l.fold s f start,
          advance { c with topoBit := c.topoBit + 1 } l, r.fold s f (start + l.rows.length),
          h.splitPoint bitL bitR, ?_, ?_, rfl⟩⟩)
      · rw [h.atShortcutDepth deep]
        generalize (Plan.split l r).rows = rows at two
        rcases rows with _ | ⟨_, _ | _⟩ <;> first | rfl | simp at two
      · rw [hlevel]
        exact ihl h.left fitsL (by omega) fun j hj => hleaf j (by omega)
      · have hend : advance (advance { c with topoBit := c.topoBit + 1 } l) r =
            advance c (.split l r) := by
          simp only [advance, Plan.siblings, Plan.bits, List.length_append, List.length_cons,
            Cursor.mk.injEq]
          omega
        rw [hlevel, hlen, ← Nat.add_assoc, ← hend]
        refine ihr h.right fitsR (by omega) fun j hj => ?_
        have := hleaf (l.rows.length + j) (by omega)
        rwa [← Nat.add_assoc] at this
  | beside n g child ih =>
    cases rem with
    | zero => exact fits.elim
    | succ rem =>
      obtain ⟨fitsC, bitC⟩ := fits
      have hpos : 0 < (Plan.beside n g child).rows.length := child.rows_pos
      have deep : ∀ row ∈ (Plan.beside n g child).rows, 256 - rem ≤ row.depth :=
        fun row hrow => (fitsC.depth row hrow).1
      have hlevel : 256 - (rem + 1) + 1 = 256 - rem := by omega
      obtain ⟨first, hfirst⟩ : ∃ row, child.rows[0]? = some row :=
        ⟨_, List.getElem?_eq_getElem hpos⟩
      refine traverse_eq_ok.mpr (.inr ⟨⟨by omega, ?_, by unfold DEPTH; omega⟩, rem, rfl, .inr
        ⟨h.bits 0 false rfl, g, n, ⟨c.siblingIdx + 1, c.topoBit + 1⟩, child.fold s f start,
          ?_, ?_, ?_, rfl⟩⟩)
      · -- a lone row lies deeper, so the walk does not stop here
        rw [h.atShortcutDepth fun row hrow => by have := deep row hrow; omega]
        generalize (Plan.beside n g child).rows = rows at deep hpos
        rcases rows with _ | ⟨row, _ | _⟩
        · cases hpos
        · have := deep row (by simp)
          exact congrArg Except.ok (beq_false_of_ne (by omega))
        · rfl
      · refine ok_bind_iff.mpr ⟨_, h.leafBit hfirst _, ?_⟩
        rw [show 256 - (rem + 1) = 255 - rem by omega, bitC first (List.mem_of_getElem? hfirst),
          Bool.not_not]
        rfl
      · refine ok_bind_iff.mpr ⟨n, ?_, rfl⟩
        rw [okOr_eq_ok]
        exact h.siblings 0 n rfl
      · have hend : advance ⟨c.siblingIdx + 1, c.topoBit + 1⟩ child =
            advance c (.beside n g child) := by
          simp only [advance, Plan.siblings, Plan.bits, List.length_cons, Cursor.mk.injEq]
          omega
        rw [hlevel, ← hend]
        exact ih h.child fitsC (by omega) hleaf

end Proof

end Vprogs.Smt
