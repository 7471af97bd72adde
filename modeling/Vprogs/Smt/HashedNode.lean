import Vprogs.Smt.Key
import Vprogs.Outcome
import Mathlib.Logic.Equiv.List

/-!
Node summaries. A node is known to its parent only by a kind byte and a hash;
an internal node authenticates the kinds of both children through its hash
domain. The digest type is left abstract, with the hasher as a parameter, so
that collision freedom can be assumed without contradiction.
-/
namespace Vprogs.Smt

/-- One of the slices handed to `hash_parts_with_domain`. -/
inductive HashPart (D : Type) where
  | key (k : Key)
  | digest (d : D)
  deriving DecidableEq

/-- The node hasher together with the all-zero digest `EMPTY_HASH`. -/
structure Hasher (D : Type) where
  emptyHash : D
  hashPartsWithDomain : List UInt8 → List (HashPart D) → D

/-- Idealised collision freedom: the hash determines its domain and parts, and
never hits `EMPTY_HASH`. -/
structure Hasher.Ideal {D : Type} (H : Hasher D) : Prop where
  injective : ∀ {d d' : List UInt8} {p p' : List (HashPart D)},
    H.hashPartsWithDomain d p = H.hashPartsWithDomain d' p' → d = d' ∧ p = p'
  ne_emptyHash : ∀ (d : List UInt8) (p : List (HashPart D)),
    H.hashPartsWithDomain d p ≠ H.emptyHash

@[ext]
structure HashedNode (D : Type) where
  kind : UInt8
  hash : D
  deriving DecidableEq

namespace HashedNode

def EMPTY : UInt8 := 0
def LEAF : UInt8 := 1
def INTERNAL : UInt8 := 2

variable {D : Type} (H : Hasher D)

/-- The summary of an empty subtree. -/
def empty : HashedNode D := ⟨EMPTY, H.emptyHash⟩

def leaf [DecidableEq D] (key : Key) (valueHash : D) : HashedNode D :=
  if valueHash = H.emptyHash then empty H
  else ⟨LEAF, H.hashPartsWithDomain [LEAF] [.key key, .digest valueHash]⟩

def internal (left right : HashedNode D) : HashedNode D :=
  if left.kind = EMPTY ∧ right.kind = EMPTY then empty H
  else ⟨INTERNAL, H.hashPartsWithDomain [INTERNAL, left.kind, right.kind]
    [.digest left.hash, .digest right.hash]⟩

/-- A leaf next to an empty subtree is promoted to the parent unchanged. -/
def combine (left right : HashedNode D) : HashedNode D :=
  if left.kind = LEAF ∧ right.kind = EMPTY then left
  else if left.kind = EMPTY ∧ right.kind = LEAF then right
  else internal H left right

@[simp] theorem empty_kind : (empty H).kind = EMPTY := rfl
@[simp] theorem empty_hash : (empty H).hash = H.emptyHash := rfl

@[simp] theorem leaf_emptyHash [DecidableEq D] (key : Key) : leaf H key H.emptyHash = empty H := by
  simp [leaf]

variable {H}

theorem leaf_of_ne [DecidableEq D] {key : Key} {v : D} (hv : v ≠ H.emptyHash) :
    leaf H key v = ⟨LEAF, H.hashPartsWithDomain [LEAF] [.key key, .digest v]⟩ := by
  simp [leaf, hv]

@[simp] theorem leaf_kind_of_ne [DecidableEq D] {key : Key} {v : D} (hv : v ≠ H.emptyHash) :
    (leaf H key v).kind = LEAF := by
  simp [leaf, hv]

theorem leaf_injective [DecidableEq D] (ideal : H.Ideal) {k k' : Key} {v v' : D} (hv : v ≠ H.emptyHash)
    (hv' : v' ≠ H.emptyHash) (he : leaf H k v = leaf H k' v') : k = k' ∧ v = v' := by
  rw [leaf_of_ne hv, leaf_of_ne hv', HashedNode.mk.injEq] at he
  have parts := (ideal.injective he.2).2
  simpa using parts

/-- The ways two summaries combine. -/
theorem combine_cases (l r : HashedNode D) :
    (l.kind = LEAF ∧ r.kind = EMPTY ∧ combine H l r = l) ∨
    (l.kind = EMPTY ∧ r.kind = LEAF ∧ combine H l r = r) ∨
    (l.kind = EMPTY ∧ r.kind = EMPTY ∧ combine H l r = empty H) ∨
    ((combine H l r).kind = INTERNAL ∧
      (combine H l r).hash = H.hashPartsWithDomain [INTERNAL, l.kind, r.kind]
        [.digest l.hash, .digest r.hash]) := by
  by_cases hLeft : l.kind = LEAF ∧ r.kind = EMPTY
  · exact .inl ⟨hLeft.1, hLeft.2, by simp [combine, hLeft]⟩
  by_cases hRight : l.kind = EMPTY ∧ r.kind = LEAF
  · exact .inr (.inl ⟨hRight.1, hRight.2, by simp [combine, hRight, EMPTY, LEAF]⟩)
  by_cases hBoth : l.kind = EMPTY ∧ r.kind = EMPTY
  · exact .inr (.inr (.inl ⟨hBoth.1, hBoth.2, by
      simp [combine, internal, hBoth, EMPTY, LEAF]⟩))
  · exact .inr (.inr (.inr (by simp [combine, internal, hLeft, hRight, hBoth])))

/-- The kind `combine` produces, without hashing. -/
def combineKind (left right : UInt8) : UInt8 :=
  if left = LEAF ∧ right = EMPTY then left
  else if left = EMPTY ∧ right = LEAF then right
  else if left = EMPTY ∧ right = EMPTY then EMPTY
  else INTERNAL

theorem combine_kind (l r : HashedNode D) : (combine H l r).kind = combineKind l.kind r.kind := by
  simp only [combine, combineKind, internal]
  split
  · rfl
  · split
    · rfl
    · split <;> rfl

theorem combine_kind_empty {l r : HashedNode D} (h : (combine H l r).kind = EMPTY) :
    l.kind = EMPTY ∧ r.kind = EMPTY ∧ combine H l r = empty H := by
  obtain ⟨hl, _, he⟩ | ⟨_, hr, he⟩ | hBoth | ⟨hk, _⟩ := combine_cases (H := H) l r
  · rw [he, hl] at h; cases h
  · rw [he, hr] at h; cases h
  · exact hBoth
  · rw [hk] at h; cases h

theorem combine_empty_left {n : HashedNode D} (h : n.kind = LEAF) : combine H (empty H) n = n := by
  simp [combine, h, EMPTY, LEAF]

theorem combine_empty_right {n : HashedNode D} (h : n.kind = LEAF) : combine H n (empty H) = n := by
  simp [combine, h]

@[simp] theorem combine_empty_empty : combine H (empty H) (empty H) = empty H := by
  simp [combine, internal, EMPTY, LEAF]

end HashedNode

def HashPart.code : HashPart Nat → Nat ⊕ Nat
  | .key k => .inl k.toNat
  | .digest d => .inr d

/-- A concrete ideal hasher: a digest is the number of what was hashed. -/
def codeHasher : Hasher Nat where
  emptyHash := 0
  hashPartsWithDomain domain parts :=
    Encodable.encode (domain.map UInt8.toNat, parts.map HashPart.code) + 1

theorem HashPart.code_injective : Function.Injective HashPart.code := by
  intro a b h
  cases a <;> cases b <;> simp_all [HashPart.code, BitVec.toNat_inj]

theorem codeHasher_ideal : codeHasher.Ideal where
  injective h := by
    have h := Encodable.encode_injective (Nat.succ_injective h)
    rw [Prod.mk.injEq] at h
    exact ⟨List.map_injective_iff.mpr (fun _ _ h => UInt8.toNat_inj.mp h) h.1,
      List.map_injective_iff.mpr HashPart.code_injective h.2⟩
  ne_emptyHash _ _ := Nat.succ_ne_zero _

end Vprogs.Smt
