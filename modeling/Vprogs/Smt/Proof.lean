import Vprogs.Smt.Traversal
import Vprogs.Buckets

/-!
Queries on a multi-proof: membership resolution, the pre-state root and the
paired pre- and post-state roots.
-/
namespace Vprogs.Smt

/-- A resolved membership. -/
structure Member (D : Type) where
  key : Key
  leaf : Leaf D
  absent : Bool
  deriving DecidableEq

def Member.valueHash {D : Type} (H : Hasher D) (m : Member D) : D :=
  if m.absent then H.emptyHash else m.leaf.valueHash

/-- The proof-leaf position a membership points at. -/
def Membership.leafPos : Membership → Nat
  | .present pos | .absent pos => pos

inductive LeafUpdate (D : Type) where
  | unchanged
  | single (value : D)
  | multiple (entries : List (Key × D))

/-- `is_sorted_by(|a, b| a < b)`: every adjacent pair is strictly ascending. -/
def isSortedBy {α : Type} (lt : α → α → Bool) : List α → Bool
  | a :: b :: rest => lt a b && isSortedBy lt (b :: rest)
  | _ => true

/-- Memberships grouped by the leaf they point at. -/
abbrev MembersByLeaf := Buckets

namespace Proof

section Members

variable {D : Type} (p : Proof D)

def key (idx : Nat) : CodecResult Key :=
  okOr p.keys[idx]? (.decode "key out of range")

def leaf (idx : Nat) : CodecResult (Leaf D) :=
  okOr p.leaves[idx]? (.decode "leaf out of range")

def leafKey (leaf : Leaf D) : CodecResult Key := p.key leaf.keyIdx

def checkSortedQueriedKeys : CodecResult Unit :=
  if p.memberships.length ≤ p.keys.length then
    if isSortedBy (fun a b => decide (a < b)) (p.keys.take p.memberships.length) then pure ()
    else .error (.err (.decode "queried keys not strictly ascending"))
  else .error (.err (.decode "membership without key"))

def memberPresent (idx leafIdx : Nat) : CodecResult (Member D) := do
  let key ← p.key idx
  let leaf ← p.leaf leafIdx
  let leafKey ← p.leafKey leaf
  if leafKey ≠ key then .error (.err (.decode "leaf is absent"))
  else pure { key := key, leaf := leaf, absent := false }

def memberAbsent (idx leafIdx : Nat) : CodecResult (Member D) := do
  let key ← p.key idx
  let leaf ← p.leaf leafIdx
  let leafKey ← p.leafKey leaf
  if leafKey = key then .error (.err (.decode "leaf is present"))
  else if !key.sharesPrefix leafKey leaf.depth then
    .error (.err (.decode "absent leaf does not witness key"))
  else pure { key := key, leaf := leaf, absent := true }

def member (idx : Nat) : CodecResult (Member D) := do
  match ← okOr p.memberships[idx]? (.decode "membership out of range") with
  | .present leafIdx => p.memberPresent idx leafIdx
  | .absent leafIdx => p.memberAbsent idx leafIdx

/-- Positions outside the leaf table are dropped here and rejected by `member`. -/
def membersByLeaf : MembersByLeaf :=
  Buckets.ofPositions p.leaves.length (p.memberships.map Membership.leafPos)

end Members

section Roots

variable {D : Type} [DecidableEq D] (H : Hasher D) (p : Proof D)

def leafHash (i : Nat) : CodecResult (HashedNode D) := do
  let leaf ← p.leaf i
  let leafKey ← p.leafKey leaf
  pure (HashedNode.leaf H leafKey leaf.valueHash)

def root : CodecResult D := do
  let (node, _) ← p.walk H (p.leafHash H) DEPTH 0 p.leaves.length 0 ⟨0, 0⟩
  pure node.hash

/-- Accumulators of the pass over one leaf's members. -/
structure UpdateScan (D : Type) where
  buffer : List (Key × D)
  newWitnessValue : Option D
  needsSynthesis : Bool
  anyChange : Bool

def scanMember (leaf : Leaf D) (newValue : Nat → D) (acc : UpdateScan D) (i : Nat) :
    CodecResult (UpdateScan D) := do
  let m ← orPanic p.memberships[i]? "membership index"
  let v := newValue i
  let acc := match m with
    | .present _ =>
      { acc with
        newWitnessValue := some v
        anyChange := acc.anyChange || decide (v ≠ leaf.valueHash) }
    | .absent _ =>
      if v ≠ H.emptyHash then { acc with needsSynthesis := true, anyChange := true } else acc
  if v ≠ H.emptyHash then do
    let key ← p.key i
    pure { acc with buffer := acc.buffer ++ [(key, v)] }
  else pure acc

/-- Classifies the post-state at a leaf from the members that point at it. -/
def classifyLeafUpdate (leaf : Leaf D) (leafKey : Key) (memberIndices : List Nat)
    (newValue : Nat → D) : CodecResult (LeafUpdate D) := do
  let acc ← memberIndices.foldlM (p.scanMember H leaf newValue) ⟨[], none, false, false⟩
  if !acc.anyChange then pure .unchanged
  else if acc.needsSynthesis then
    let buffer :=
      if acc.newWitnessValue.isNone && decide (leaf.valueHash ≠ H.emptyHash) then
        acc.buffer ++ [(leafKey, leaf.valueHash)]
      else acc.buffer
    pure (.multiple (sortByKey buffer))
  else pure (.single (acc.newWitnessValue.getD leaf.valueHash))

/-- Hashes the subtree at `depth` over entries sorted by key. `rem` counts the
levels left: entries that no bit separates would recurse without end. -/
def subtreeHash : Nat → List (Key × D) → Nat → CodecResult (HashedNode D)
  | _, [], _ => pure (HashedNode.empty H)
  | _, [e], _ => pure (HashedNode.leaf H e.1 e.2)
  | 0, _ :: _ :: _, _ => .error (.panic "subtree_hash past DEPTH")
  | rem + 1, es@(_ :: _ :: _), depth => do
      let mid := slicePartitionPoint (fun e => !e.1.getMsb depth) es
      let left ← subtreeHash rem (es.take mid) (depth + 1)
      let right ← subtreeHash rem (es.drop mid) (depth + 1)
      pure (HashedNode.combine H left right)

def leafPair (leafPos : Nat) (memberIndices : List Nat) (newValue : Nat → D) :
    CodecResult (HashedNode D × HashedNode D) := do
  let leaf ← p.leaf leafPos
  let leafKey ← p.leafKey leaf
  let prev := HashedNode.leaf H leafKey leaf.valueHash
  match ← p.classifyLeafUpdate H leaf leafKey memberIndices newValue with
  | .unchanged => pure (prev, prev)
  | .single value => pure (prev, HashedNode.leaf H leafKey value)
  | .multiple entries => do
      let post ← subtreeHash H (DEPTH - leaf.depth) entries leaf.depth
      pure (prev, post)

def computeRoots (newValue : Nat → D) : CodecResult (D × D) := do
  let mbl := p.membersByLeaf
  let ((prev, post), _) ← p.walkPair H (fun pos => p.leafPair H pos (mbl.at pos) newValue)
    DEPTH 0 p.leaves.length 0 ⟨0, 0⟩
  pure (prev.hash, post.hash)

end Roots
end Proof
end Vprogs.Smt
