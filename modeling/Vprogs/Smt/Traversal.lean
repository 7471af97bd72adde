import Vprogs.Smt.HashedNode
import Vprogs.Slice

/-!
The wire view of a multi-proof and the recursive walk over it. Tables are
exactly what decoding yields: nothing relates their lengths, the key indices,
the declared depths or the order of the leaves, so out-of-range accesses that
the source leaves unchecked are modelled as panics.
-/
namespace Vprogs.Smt

structure Leaf (D : Type) where
  depth : Nat
  keyIdx : Nat
  valueHash : D
  deriving DecidableEq

inductive Membership where
  | present (leafIdx : Nat)
  | absent (leafIdx : Nat)
  deriving DecidableEq

structure Proof (D : Type) where
  keys : List Key
  leaves : List (Leaf D)
  siblings : List (HashedNode D)
  topology : List UInt8
  memberships : List Membership
  deriving DecidableEq

/-- Positions of the next sibling and the next topology bit. -/
structure Cursor where
  siblingIdx : Nat
  topoBit : Nat
  deriving DecidableEq

/-- What a walk computes at each node; the single and the paired walk of the
source differ only here. -/
structure Summarizer (D T : Type) where
  empty : T
  leafHashFn : Nat → CodecResult T
  both : T → T → T
  besideSibling : T → HashedNode D → Bool → T

/-- `Bits::get_lsb` on packed bytes. -/
def getLsb (bytes : List UInt8) (index : Nat) : Bool :=
  match bytes[index / 8]? with
  | some b => b.toNat.testBit (index % 8)
  | none => false

def malformed {α : Type} : CodecResult α := .error (.err (.decode "malformed proof"))

namespace Proof

variable {D T : Type} (p : Proof D)

/-- True if the single leaf at `start` has reached its shortcut depth. -/
def atShortcutDepth (start fin level : Nat) : CodecResult Bool :=
  if fin - start ≠ 1 then pure false
  else do
    let leaf ← orPanic p.leaves[start]? "leaf index"
    if leaf.depth < level then malformed else pure (level == leaf.depth)

/-- Terminal value at this position, or `none` to continue the recursion. -/
def terminalValue (s : Summarizer D T) (start fin level : Nat) : CodecResult (Option T) :=
  if start = fin then pure (some s.empty)
  else do
    if ← p.atShortcutDepth start fin level then
      let value ← s.leafHashFn start
      pure (some value)
    else if DEPTH ≤ level then malformed
    else pure none

def nextTopologyBit (c : Cursor) : Bool × Cursor :=
  (getLsb p.topology c.topoBit, { c with topoBit := c.topoBit + 1 })

/-- The bit of the leaf's own key, read through unchecked table accesses. -/
def leafBit (pos level : Nat) : CodecResult Bool := do
  let leaf ← orPanic p.leaves[pos]? "leaf index"
  let key ← orPanic p.keys[leaf.keyIdx]? "key index"
  pure (key.getMsb level)

def splitPoint (start fin level : Nat) : CodecResult Nat := do
  let mid ← partitionPointM
    (fun i => do let bit ← p.leafBit (start + i) level; pure !bit) (fin - start)
  pure (start + mid)

def leafGoesLeft (start level : Nat) : CodecResult Bool := do
  let bit ← p.leafBit start level
  pure !bit

def nextSibling (c : Cursor) : CodecResult (HashedNode D × Cursor) := do
  let sibling ← okOr p.siblings[c.siblingIdx]? (.decode "malformed proof")
  pure (sibling, { c with siblingIdx := c.siblingIdx + 1 })

/-- The recursion shared by `walk` and `walk_pair`. `rem` counts the levels
left; `terminalValue` already rejects a walk that reaches `DEPTH`. -/
def traverse (s : Summarizer D T) (rem start fin level : Nat) (c : Cursor) :
    CodecResult (T × Cursor) := do
  match ← p.terminalValue s start fin level with
  | some value => pure (value, c)
  | none =>
    match rem with
    | 0 => malformed
    | rem + 1 =>
      let (isSplit, c) := p.nextTopologyBit c
      if isSplit then
        let mid ← p.splitPoint start fin level
        let (left, c) ← traverse s rem start mid (level + 1) c
        let (right, c) ← traverse s rem mid fin (level + 1) c
        pure (s.both left right, c)
      else
        let goesLeft ← p.leafGoesLeft start level
        let (sibling, c) ← p.nextSibling c
        let (child, c) ← traverse s rem start fin (level + 1) c
        pure (s.besideSibling child sibling goesLeft, c)
termination_by structural rem

/-- The walk goes on below this position. -/
def Continues (start fin level : Nat) : Prop :=
  start ≠ fin ∧ p.atShortcutDepth start fin level = .ok false ∧ level < DEPTH

variable {p} {s : Summarizer D T} {rem start fin level : Nat} {c c' : Cursor} {x : T}

theorem terminalValue_eq_some :
    p.terminalValue s start fin level = .ok (some x) ↔
      (start = fin ∧ x = s.empty) ∨
      (start ≠ fin ∧ p.atShortcutDepth start fin level = .ok true ∧
        s.leafHashFn start = .ok x) := by
  unfold terminalValue
  by_cases h : start = fin
  · simp only [h, if_true]
    constructor
    · intro h; cases h; simp
    · rintro (⟨_, rfl⟩ | ⟨h, _⟩)
      · rfl
      · exact absurd rfl h
  · simp only [h, if_false, ok_bind_iff, false_and, false_or, ne_eq, not_false_eq_true, true_and]
    constructor
    · rintro ⟨b, hb, hr⟩
      cases b with
      | true =>
        obtain ⟨v, hv, hx⟩ := ok_bind_iff.mp hr
        cases hx
        exact ⟨hb, hv⟩
      | false =>
        simp only [Bool.false_eq_true, if_false] at hr
        split at hr <;> cases hr
    · rintro ⟨hb, hv⟩
      exact ⟨true, hb, ok_bind_iff.mpr ⟨x, hv, rfl⟩⟩

theorem terminalValue_eq_none :
    p.terminalValue s start fin level = .ok none ↔ p.Continues start fin level := by
  unfold terminalValue Continues
  by_cases h : start = fin
  · simp only [h, if_true]
    constructor
    · intro h; cases h
    · rintro ⟨h, _⟩
      exact absurd rfl h
  · simp only [h, if_false, ok_bind_iff, ne_eq, not_false_eq_true, true_and]
    constructor
    · rintro ⟨b, hb, hr⟩
      cases b with
      | true =>
        obtain ⟨v, hv, hx⟩ := ok_bind_iff.mp hr
        cases hx
      | false =>
        simp only [Bool.false_eq_true, if_false] at hr
        split at hr
        · cases hr
        · exact ⟨hb, by omega⟩
    · rintro ⟨hb, hv⟩
      exact ⟨false, hb, by rw [if_neg (by simp), if_neg (Nat.not_le.mpr hv)]; rfl⟩

/-- Everything one step of the walk can do. -/
theorem traverse_eq_ok :
    p.traverse s rem start fin level c = .ok (x, c') ↔
      (((start = fin ∧ x = s.empty) ∨
        (start ≠ fin ∧ p.atShortcutDepth start fin level = .ok true ∧
          s.leafHashFn start = .ok x)) ∧ c' = c) ∨
      (p.Continues start fin level ∧ ∃ n, rem = n + 1 ∧
        (((p.nextTopologyBit c).1 = true ∧ ∃ mid left c₁ right,
          p.splitPoint start fin level = .ok mid ∧
          p.traverse s n start mid (level + 1) (p.nextTopologyBit c).2 = .ok (left, c₁) ∧
          p.traverse s n mid fin (level + 1) c₁ = .ok (right, c') ∧
          x = s.both left right) ∨
        ((p.nextTopologyBit c).1 = false ∧ ∃ goesLeft sibling c₁ child,
          p.leafGoesLeft start level = .ok goesLeft ∧
          p.nextSibling (p.nextTopologyBit c).2 = .ok (sibling, c₁) ∧
          p.traverse s n start fin (level + 1) c₁ = .ok (child, c') ∧
          x = s.besideSibling child sibling goesLeft))) := by
  rw [← terminalValue_eq_some, ← terminalValue_eq_none (s := s)]
  rw [traverse.eq_def, ok_bind_iff]
  constructor
  · rintro ⟨v, ht, hr⟩
    cases v with
    | some v =>
      cases hr
      exact .inl ⟨ht, rfl⟩
    | none =>
      refine .inr ⟨ht, ?_⟩
      cases rem with
      | zero => cases hr
      | succ n =>
        refine ⟨n, rfl, ?_⟩
        cases hb : (p.nextTopologyBit c).1 with
        | true =>
          simp only [hb, if_true] at hr
          obtain ⟨mid, hMid, hr⟩ := ok_bind_iff.mp hr
          obtain ⟨⟨left, c₁⟩, hLeft, hr⟩ := ok_bind_iff.mp hr
          obtain ⟨⟨right, c₂⟩, hRight, hr⟩ := ok_bind_iff.mp hr
          cases hr
          exact .inl ⟨rfl, mid, left, c₁, right, hMid, hLeft, hRight, rfl⟩
        | false =>
          simp only [hb, Bool.false_eq_true, if_false] at hr
          obtain ⟨goesLeft, hGoes, hr⟩ := ok_bind_iff.mp hr
          obtain ⟨⟨sibling, c₁⟩, hSibling, hr⟩ := ok_bind_iff.mp hr
          obtain ⟨⟨child, c₂⟩, hChild, hr⟩ := ok_bind_iff.mp hr
          cases hr
          exact .inr ⟨rfl, goesLeft, sibling, c₁, child, hGoes, hSibling, hChild, rfl⟩
  · rintro (⟨ht, rfl⟩ | ⟨ht, n, rfl, ⟨hb, mid, left, c₁, right, hMid, hLeft, hRight, rfl⟩ |
      ⟨hb, goesLeft, sibling, c₁, child, hGoes, hSibling, hChild, rfl⟩⟩)
    · exact ⟨some x, ht, rfl⟩
    · refine ⟨none, ht, ?_⟩
      simp only [hb, if_true]
      exact ok_bind_iff.mpr ⟨mid, hMid, ok_bind_iff.mpr ⟨_, hLeft, ok_bind_iff.mpr
        ⟨_, hRight, rfl⟩⟩⟩
    · refine ⟨none, ht, ?_⟩
      simp only [hb, Bool.false_eq_true, if_false]
      exact ok_bind_iff.mpr ⟨goesLeft, hGoes, ok_bind_iff.mpr ⟨_, hSibling, ok_bind_iff.mpr
        ⟨_, hChild, rfl⟩⟩⟩

end Proof

/-- Combines a child with its off-path sibling, ordered by the child's side. -/
def combineWithSibling {D : Type} (H : Hasher D) (child sibling : HashedNode D)
    (childGoesLeft : Bool) : HashedNode D :=
  if childGoesLeft then HashedNode.combine H child sibling
  else HashedNode.combine H sibling child

namespace Summarizer

variable {D : Type} (H : Hasher D)

def single (leafHashFn : Nat → CodecResult (HashedNode D)) : Summarizer D (HashedNode D) where
  empty := HashedNode.empty H
  leafHashFn := leafHashFn
  both := HashedNode.combine H
  besideSibling := combineWithSibling H

variable [DecidableEq D]

/-- Pre- and post-state side by side; an unchanged subtree keeps the pre-state
summary. -/
def paired (leafHashFn : Nat → CodecResult (HashedNode D × HashedNode D)) :
    Summarizer D (HashedNode D × HashedNode D) where
  empty := (HashedNode.empty H, HashedNode.empty H)
  leafHashFn := leafHashFn
  both := fun left right =>
    let prev := HashedNode.combine H left.1 right.1
    (prev, if left.1 = left.2 ∧ right.1 = right.2 then prev
           else HashedNode.combine H left.2 right.2)
  besideSibling := fun child sibling goesLeft =>
    let prev := combineWithSibling H child.1 sibling goesLeft
    (prev, if child.1 = child.2 then prev
           else combineWithSibling H child.2 sibling goesLeft)

variable {H} {leafHashFn : Nat → CodecResult (HashedNode D × HashedNode D)}

/-- Reusing the pre-state summary changes nothing. -/
theorem paired_both (x y : HashedNode D × HashedNode D) :
    (paired H leafHashFn).both x y =
      (HashedNode.combine H x.1 y.1, HashedNode.combine H x.2 y.2) := by
  simp only [paired, Prod.mk.injEq, true_and]
  split
  · rename_i same
    rw [same.1, same.2]
  · rfl

theorem paired_besideSibling (x : HashedNode D × HashedNode D) (n : HashedNode D) (g : Bool) :
    (paired H leafHashFn).besideSibling x n g =
      (combineWithSibling H x.1 n g, combineWithSibling H x.2 n g) := by
  simp only [paired, Prod.mk.injEq, true_and]
  split
  · rename_i same
    rw [same]
  · rfl

end Summarizer

namespace Proof

variable {D : Type} (H : Hasher D) (p : Proof D)

/-- Walk returning the kinded summary at each level. -/
def walk (leafHashFn : Nat → CodecResult (HashedNode D)) :=
  p.traverse (.single H leafHashFn)

/-- Walk returning the kinded `(prev, post)` summaries at each level. -/
def walkPair [DecidableEq D] (leafHashFn : Nat → CodecResult (HashedNode D × HashedNode D)) :=
  p.traverse (.paired H leafHashFn)

end Proof
end Vprogs.Smt
