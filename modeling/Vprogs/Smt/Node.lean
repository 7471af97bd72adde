import Vprogs.Smt.LeafUpdate

/-!
Stored nodes. A node sits at a position (level and path) and a tree is what the
store reads at every position. `Stores` says that the nodes readable at and
below a position are exactly the canonical shortcut tree of some entries: the
node itself, the two halves below an internal node, and nothing below a leaf.
-/
namespace Vprogs.Smt

/-- A position of the tree. Only the first `level` bits of the path count. -/
structure NodeKey where
  level : Nat
  path : Key
  deriving DecidableEq

namespace NodeKey

def ROOT : NodeKey := ⟨0, 0⟩

def leftChild (k : NodeKey) : NodeKey := ⟨k.level + 1, k.path⟩

/-- The path with the bit at the current level set. -/
def rightChild (k : NodeKey) : NodeKey := ⟨k.level + 1, k.path ||| (1 <<< (255 - k.level))⟩

end NodeKey

inductive Node (D : Type) where
  | empty
  | internal (hash : D)
  | leaf (key : Key) (valueHash hash : D)
  deriving DecidableEq

namespace Node

variable {D : Type}

def hash (H : Hasher D) : Node D → D
  | .empty => H.emptyHash
  | .internal hash => hash
  | .leaf _ _ hash => hash

/-- The summary a parent hashes. -/
def toHashed (H : Hasher D) : Node D → HashedNode D
  | .empty => HashedNode.empty H
  | .internal hash => ⟨HashedNode.INTERNAL, hash⟩
  | .leaf _ _ hash => ⟨HashedNode.LEAF, hash⟩

def mkInternal (H : Hasher D) (left right : HashedNode D) : Node D :=
  .internal (HashedNode.internal H left right).hash

def mkLeaf [DecidableEq D] (H : Hasher D) (key : Key) (valueHash : D) : Node D :=
  .leaf key valueHash (HashedNode.leaf H key valueHash).hash

/-- The summary of a position that may hold no node. -/
def summary (H : Hasher D) (node : Option (Node D)) : HashedNode D :=
  (node.map (toHashed H)).getD (HashedNode.empty H)

/-- The node over two children: none, a leaf lifted past an empty side, or an
internal node. -/
def join (H : Hasher D) : Option (Node D) → Option (Node D) → Option (Node D)
  | none, none => none
  | some (.leaf k v h), none => some (.leaf k v h)
  | none, some (.leaf k v h) => some (.leaf k v h)
  | l, r => some (mkInternal H (summary H l) (summary H r))

end Node

/-- A read of the store: the latest version of the node at a position. -/
abbrev Reads (D : Type) := NodeKey → Option (Nat × Node D)

/-- The node at a position; a tombstone counts as no node. -/
def Reads.live {D : Type} (node : Reads D) (key : NodeKey) : Option (Node D) :=
  match node key with
  | none | some (_, .empty) => none
  | some (_, n) => some n

section

variable {D : Type} [DecidableEq D]

/-- The node that stands for entries with `rem` levels below it. -/
def nodeOf (H : Hasher D) (rem : Nat) : List (Key × D) → Option (Node D)
  | [] => none
  | [e] => some (Node.mkLeaf H e.1 e.2)
  | es@(_ :: _ :: _) => some (.internal (canon H rem es).hash)

/-- Entries that have nodes of their own below a node for `es`. -/
def below (rem : Nat) (b : Bool) (es : List (Key × D)) : List (Key × D) :=
  if 2 ≤ es.length then side rem b es else []

/-- The readable nodes at and below `key` are the canonical tree of `es`. -/
def Stores (H : Hasher D) (node : Reads D) : Nat → NodeKey → List (Key × D) → Prop
  | 0, key, es => node.live key = nodeOf H 0 es
  | rem + 1, key, es =>
    node.live key = nodeOf H (rem + 1) es ∧ Stores H node rem key.leftChild (below rem false es) ∧
      Stores H node rem key.rightChild (below rem true es)

variable {H : Hasher D} {rem : Nat} {es : List (Key × D)}

theorem Stores.node {node : Reads D} {key : NodeKey} (h : Stores H node rem key es) :
    node.live key = nodeOf H rem es := by
  cases rem with
  | zero => exact h
  | succ rem => exact h.1

/-- Where nothing is readable the empty tree is stored. -/
theorem stores_nil {node : Reads D} {key : NodeKey}
    (h : ∀ k : NodeKey, key.level ≤ k.level → node.live k = none) : Stores H node rem key [] := by
  induction rem generalizing key with
  | zero => exact h key (Nat.le_refl _)
  | succ rem ih =>
    have below := fun (k : NodeKey) (hk : key.level + 1 ≤ k.level) => h k (by omega)
    exact ⟨h key (Nat.le_refl _), ih below, ih below⟩

theorem nodeOf_two (h : 2 ≤ es.length) : nodeOf H rem es = some (.internal (canon H rem es).hash) := by
  match es with
  | _ :: _ :: _ => rfl

theorem nodeOf_perm {es' : List (Key × D)} (h : es.Perm es') : nodeOf H rem es = nodeOf H rem es' := by
  match es, es', h with
  | [], es', h => rw [List.nil_perm.mp h]
  | [e], es', h => rw [List.singleton_perm.mp h]
  | _ :: _ :: _, [], h => exact absurd h.length_eq (by simp)
  | _ :: _ :: _, [_], h => exact absurd h.length_eq (by simp)
  | a :: b :: _, c :: d :: _, h =>
    rw [nodeOf_two (by simp), nodeOf_two (by simp), canon_perm h]

/-- A stored node's summary is the canonical one. -/
theorem toHashed_nodeOf (seg : Segment H rem es) : Node.summary H (nodeOf H rem es) = canon H rem es := by
  obtain ⟨rfl, _⟩ | ⟨⟨e, rfl⟩, hk⟩ | ⟨two, hk⟩ := canon_kind seg
  · rw [canon_nil]
    rfl
  · rw [canon_singleton] at hk ⊢
    exact HashedNode.ext hk.symm rfl
  · rw [nodeOf_two two]
    exact HashedNode.ext hk.symm rfl

/-- A node is put together from its two sides. -/
theorem nodeOf_succ (seg : Segment H (rem + 1) es) :
    nodeOf H (rem + 1) es =
      Node.join H (nodeOf H rem (side rem false es)) (nodeOf H rem (side rem true es)) := by
  have total := length_side_add rem es
  have hl := toHashed_nodeOf (seg.side false)
  have hr := toHashed_nodeOf (seg.side true)
  -- with two entries the canonical summary is the plain internal one
  have internal : 2 ≤ es.length →
      (HashedNode.internal H (canon H rem (side rem false es)) (canon H rem (side rem true es))).hash =
        (canon H (rem + 1) es).hash := by
    intro two
    obtain ⟨_, k⟩ | ⟨⟨e, he⟩, _⟩ | ⟨_, hk⟩ := canon_kind seg
    · simp_all
    · simp [he] at two
    · rw [canon_succ seg.live] at hk ⊢
      unfold HashedNode.combine at hk ⊢
      split at hk
      · next h => rw [h.1] at hk; cases hk
      · next h =>
        rw [if_neg h]
        split at hk
        · next h' => rw [h'.2] at hk; cases hk
        · next h' => rw [if_neg h']
  match hL : side rem false es, hR : side rem true es with
  | [], [] =>
    have : es = [] := by
      rw [hL, hR] at total
      exact List.length_eq_zero_iff.mp total.symm
    rw [this]
    rfl
  | [e], [] =>
    rw [hL, hR] at total
    match es, total with
    | [x], _ =>
      have hx : x ∈ side rem false [x] ∨ x ∈ side rem true [x] := by
        cases hb : x.1.getMsb (255 - rem) <;> simp [hb]
      rw [hL, hR] at hx
      have : x = e := by simpa using hx
      rw [this]
      rfl
  | [], [e] =>
    rw [hL, hR] at total
    match es, total with
    | [x], _ =>
      have hx : x ∈ side rem false [x] ∨ x ∈ side rem true [x] := by
        cases hb : x.1.getMsb (255 - rem) <;> simp [hb]
      rw [hL, hR] at hx
      have : x = e := by simpa using hx
      rw [this]
      rfl
  | a :: b :: L, R =>
    have two : 2 ≤ es.length := by rw [hL, hR] at total; simp at total; omega
    rw [hL] at hl
    rw [hR] at hr
    rw [nodeOf_two two, ← internal two, hL, hR, ← hl, ← hr]
    cases hn : nodeOf H rem R <;> rfl
  | [a], c :: R =>
    have two : 2 ≤ es.length := by rw [hL, hR] at total; simp at total; omega
    rw [hL] at hl
    rw [hR] at hr
    rw [nodeOf_two two, ← internal two, hL, hR, ← hl, ← hr]
    match R with
    | [] => rfl
    | _ :: _ => rfl
  | [], c :: d :: R =>
    have two : 2 ≤ es.length := by rw [hL, hR] at total; simp at total; omega
    rw [hL] at hl
    rw [hR] at hr
    rw [nodeOf_two two, ← internal two, hL, hR, ← hl, ← hr]
    rfl

end

end Vprogs.Smt
