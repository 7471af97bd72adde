import Vprogs.Smt.Updater

/-!
The prover's side of a multi-proof. The builder walks the stored tree top-down
along the sorted input keys and records witness leaves, off-path siblings and
the topology; every input key is then answered by the leaf its walk ended at.
-/
namespace Vprogs.Smt

/-- `Bits::set_lsb` on packed bytes; out-of-range indices are ignored. -/
def setLsb (bytes : List UInt8) (index : Nat) : List UInt8 :=
  bytes.modify (index / 8) fun b => b ||| UInt8.ofNat (1 <<< (index % 8))

/-- Packed topology bits. -/
structure Topology where
  bytes : List UInt8 := []
  len : Nat := 0
  deriving DecidableEq

def Topology.push (t : Topology) (bit : Bool) : Topology :=
  let bytes := if t.len % 8 = 0 then t.bytes ++ [0] else t.bytes
  ⟨if bit then setLsb bytes t.len else bytes, t.len + 1⟩

/-- `SortUnique::sort_unique`: the keys in ascending order and, for each, its
place in the input. -/
def sortUnique (keys : List Key) : CodecResult (List Key × List Nat) :=
  let order := (List.range keys.length).insertionSort fun a b => keys.getD a 0 ≤ keys.getD b 0
  let sorted := order.map fun i => keys.getD i 0
  if isSortedBy (fun a b => decide (a ≠ b)) sorted then pure (sorted, order)
  else .error (.err (.decode "duplicate keys"))

/-- The tables under construction; `keyToIdx` is the builder's lookup of interned
keys. -/
structure ProofBuilder (D : Type) where
  keys : List Key
  keyToIdx : List (Key × Nat)
  leaves : List (Leaf D)
  siblings : List (HashedNode D)
  topology : Topology
  sortedToLeaf : List Nat

namespace ProofBuilder

variable {D : Type}

def new (keysInput : List Key) : ProofBuilder D where
  keys := keysInput
  keyToIdx := keysInput.zipIdx
  leaves := []
  siblings := []
  topology := {}
  sortedToLeaf := List.replicate keysInput.length 0

def internKey (b : ProofBuilder D) (key : Key) : Nat × ProofBuilder D :=
  match b.keyToIdx.lookup key with
  | some idx => (idx, b)
  | none =>
    (b.keys.length, { b with
      keys := b.keys ++ [key]
      keyToIdx := b.keyToIdx ++ [(key, b.keys.length)] })

/-- Overwrites `count` slots from `offset`. -/
def fillSlots (slots : List Nat) (offset count value : Nat) : List Nat :=
  slots.take offset ++ (List.replicate count value ++ slots.drop (offset + count))

/-- Emits a leaf and records it as the witness of `count` sorted inputs. -/
def emitLeaf (b : ProofBuilder D) (key : Key) (valueHash : D) (depth offset count : Nat) :
    ProofBuilder D :=
  let (keyIdx, b) := b.internKey key
  { b with
    leaves := b.leaves ++ [⟨depth, keyIdx, valueHash⟩]
    sortedToLeaf := fillSlots b.sortedToLeaf offset count b.leaves.length }

def pushSplit (b : ProofBuilder D) : ProofBuilder D := { b with topology := b.topology.push true }

def pushSibling (b : ProofBuilder D) (sibling : HashedNode D) : ProofBuilder D :=
  { b with topology := b.topology.push false, siblings := b.siblings ++ [sibling] }

section

variable (H : Hasher D)

/-- An empty subtree: every input key is absent. `rem` counts the levels left;
keys that no bit separates would recurse without end. -/
def collectEmpty : Nat → List Key → Nat → Nat → ProofBuilder D → CodecResult (ProofBuilder D)
  | _, [key], level, offset, b => .ok (b.emitLeaf key H.emptyHash level offset 1)
  | 0, _, _, _, _ => .error (.panic "collect_empty past DEPTH")
  | rem + 1, inputKeys, level, offset, b =>
    let mid := slicePartitionPoint (fun k : Key => !k.getMsb level) inputKeys
    if 0 < mid ∧ mid < inputKeys.length then do
      let b ← collectEmpty rem (inputKeys.take mid) (level + 1) offset b.pushSplit
      collectEmpty rem (inputKeys.drop mid) (level + 1) (offset + mid) b
    else collectEmpty rem inputKeys (level + 1) offset (b.pushSibling (HashedNode.empty H))

variable (node : Reads D)

def childSummary (key : NodeKey) : HashedNode D :=
  match node key with
  | some (_, n) => n.toHashed H
  | none => HashedNode.empty H

/-- An internal node, given how to go on at its children. -/
def collectInternal (collect : NodeKey → List Key → Nat → ProofBuilder D → CodecResult (ProofBuilder D))
    (key : NodeKey) (inputKeys : List Key) (offset : Nat) (b : ProofBuilder D) :
    CodecResult (ProofBuilder D) :=
  let mid := slicePartitionPoint (fun k : Key => !k.getMsb key.level) inputKeys
  let leftKeys := inputKeys.take mid
  let rightKeys := inputKeys.drop mid
  match leftKeys.isEmpty, rightKeys.isEmpty with
  | false, false => do
      let b ← collect key.leftChild leftKeys offset b.pushSplit
      collect key.rightChild rightKeys (offset + mid) b
  | true, false =>
    collect key.rightChild rightKeys offset (b.pushSibling (childSummary H node key.leftChild))
  | false, true =>
    collect key.leftChild leftKeys offset (b.pushSibling (childSummary H node key.rightChild))
  | true, true => .error (.panic "internal error: entered unreachable code")

/-- The walk; `rem` counts the levels below the position. -/
def collect (rem : Nat) (key : NodeKey) (inputKeys : List Key) (offset : Nat) (b : ProofBuilder D) :
    CodecResult (ProofBuilder D) :=
  if inputKeys.isEmpty then .ok b
  else match node key with
    | none | some (_, .empty) => collectEmpty H rem inputKeys key.level offset b
    | some (_, .leaf leafKey valueHash _) =>
      .ok (b.emitLeaf leafKey valueHash key.level offset inputKeys.length)
    | some (_, .internal _) =>
      match rem with
      | 0 => .error (.panic "collect past DEPTH")
      | rem + 1 => collectInternal H node (collect rem) key inputKeys offset b

end

/-- One step of the inversion of the sort order. -/
def classifyMembership (b : ProofBuilder D) (memberships : List Membership)
    (slot : Nat × Nat) : CodecResult (List Membership) := do
  let (idx, sortedPos) := slot
  let leafPos ← orPanic b.sortedToLeaf[sortedPos]? "sorted_to_leaf index"
  let leaf ← orPanic b.leaves[leafPos]? "leaf index"
  pure (memberships.set idx (if leaf.keyIdx = idx then .present leafPos else .absent leafPos))

def classifyMemberships (b : ProofBuilder D) (sortOrder : List Nat) : CodecResult (List Membership) :=
  sortOrder.zipIdx.foldlM b.classifyMembership (List.replicate sortOrder.length (.absent 0))

/-- The assembled proof, before it is written to the wire. -/
def build (H : Hasher D) (node : Reads D) (keysInput : List Key) : CodecResult (Proof D) := do
  let (sortedKeys, sortOrder) ← sortUnique keysInput
  let b ← collect H node DEPTH NodeKey.ROOT sortedKeys 0 (new keysInput)
  let memberships ← b.classifyMemberships sortOrder
  pure ⟨b.keys, b.leaves, b.siblings, b.topology.bytes, memberships⟩

end ProofBuilder

/-- `Tree::prove`; `node` is the read at the proven version. -/
def Tree.prove {D : Type} (H : Hasher D) (node : Reads D) (keys : List Key) : CodecResult (Proof D) :=
  ProofBuilder.build H node keys

end Vprogs.Smt
