import Vprogs.Smt.Node

/-!
Applying leaf mutations to a stored tree. The updater reads the nodes of the
previous version, writes new nodes and stale markers into a batch and returns
the new root. Leaves are not written where they are made: they bubble up to the
highest position where they are alone.
-/
namespace Vprogs.Smt

structure StaleNode where
  staleSinceVersion : Nat
  key : NodeKey
  version : Nat
  deriving DecidableEq

inductive SmtWrite (D : Type) where
  | putNode (key : NodeKey) (version : Nat) (node : Node D)
  | putStaleNode (stale : StaleNode)
  deriving DecidableEq

abbrev WriteBatch (D : Type) := List (SmtWrite D)

/-- A state change: a key and its new value hash, `EMPTY_HASH` for a deletion. -/
abbrev Commitment (D : Type) := Key × D

/-- The reads of the prior version and the version being written. -/
structure Updater (D : Type) where
  node : Reads D
  version : Nat

namespace Updater

variable {D : Type} [DecidableEq D] (H : Hasher D) (ctx : Updater D)

/-- Every step returns the node at its position, which the caller places, and the
writes so far. -/
abbrev Recurse (D : Type) :=
  NodeKey → List (Commitment D) → WriteBatch D → Guest (Option (Node D) × WriteBatch D)

omit [DecidableEq D] in
def markStale (key : NodeKey) (wb : WriteBatch D) : WriteBatch D :=
  match ctx.node key with
  | some (oldVersion, _) => wb ++ [.putStaleNode ⟨ctx.version, key, oldVersion⟩]
  | none => wb

omit [DecidableEq D] in
/-- A child that became empty is tombstoned where a node would resurface. -/
def writeChild (child : Option (Node D)) (key : NodeKey) (wb : WriteBatch D) :
    HashedNode D × WriteBatch D :=
  match child with
  | none =>
    (HashedNode.empty H,
      if (ctx.node.live key).isSome then
        wb ++ [.putNode key ctx.version .empty,
          .putStaleNode ⟨ctx.version, key, ctx.version⟩]
      else wb)
  | some node => (node.toHashed H, wb ++ [.putNode key ctx.version node])

omit [DecidableEq D] in
/-- Places the two children below an internal node, or lifts a lone leaf. -/
def joinChildren (key : NodeKey) (left right : Option (Node D)) (wb : WriteBatch D) :
    Option (Node D) × WriteBatch D :=
  match left, right with
  | none, none => (none, wb)
  | some (.leaf k v h), none => (some (.leaf k v h), wb)
  | none, some (.leaf k v h) => (some (.leaf k v h), wb)
  | l, r =>
    let (left, wb) := writeChild H ctx l key.leftChild wb
    let (right, wb) := writeChild H ctx r key.rightChild wb
    (some (Node.mkInternal H left right), wb)

omit [DecidableEq D] in
def splitAndRecurse (updateSubtree : Recurse D) (key : NodeKey) (commitments : List (Commitment D))
    (wb : WriteBatch D) : Guest (Option (Node D) × WriteBatch D) := do
  check (decide (key.level < DEPTH)) "exceeded tree depth"
  let mid := slicePartitionPoint (fun u => !u.1.getMsb key.level) commitments
  let (left, wb) ← updateSubtree key.leftChild (commitments.take mid) wb
  let (right, wb) ← updateSubtree key.rightChild (commitments.drop mid) wb
  pure (joinChildren H ctx key left right wb)

def resolveLeaves (splitAndRecurse : Recurse D) (key : NodeKey) (commitments : List (Commitment D))
    (wb : WriteBatch D) : Guest (Option (Node D) × WriteBatch D) :=
  match commitments.filter fun u => decide (u.2 ≠ H.emptyHash) with
  | [] => pure (none, wb)
  | [first] => pure (some (Node.mkLeaf H first.1 first.2), wb)
  | _ :: _ :: _ => splitAndRecurse key commitments wb

/-- The commitments with the existing leaf among them, unless they set its key. -/
def mergeExisting (existing : Commitment D) (commitments : List (Commitment D)) :
    List (Commitment D) :=
  let pos := slicePartitionPoint (fun u => decide (u.1 < existing.1)) commitments
  if commitments[pos]?.any (fun u => u.1 == existing.1) then commitments
  else commitments.take pos ++ existing :: commitments.drop pos

/-- The new value when the only commitment is to the leaf's own key. -/
def replacesLeaf (existing : Commitment D) : List (Commitment D) → Option D
  | [u] => if u.1 = existing.1 then some u.2 else none
  | _ => none

def updateAtLeaf (splitAndRecurse : Recurse D) (existing : Commitment D) (key : NodeKey)
    (commitments : List (Commitment D)) (wb : WriteBatch D) :
    Guest (Option (Node D) × WriteBatch D) :=
  let wb := ctx.markStale key wb
  match replacesLeaf existing commitments with
  | some newVh =>
    if newVh = H.emptyHash then .ok (none, wb)
    else .ok (some (Node.mkLeaf H existing.1 newVh), wb)
  | none => resolveLeaves H splitAndRecurse key (mergeExisting existing commitments) wb

/-- One position, given how to go on below it. -/
def updateNode (splitAndRecurse : Recurse D) (key : NodeKey) (commitments : List (Commitment D))
    (wb : WriteBatch D) : Guest (Option (Node D) × WriteBatch D) :=
  if commitments.isEmpty then .ok (ctx.node.live key, wb)
  else match ctx.node key with
    | none => resolveLeaves H splitAndRecurse key commitments wb
    | some (_, .empty) => resolveLeaves H splitAndRecurse key commitments (ctx.markStale key wb)
    | some (_, .leaf k v _) => updateAtLeaf H ctx splitAndRecurse (k, v) key commitments wb
    | some (_, .internal _) => splitAndRecurse key commitments (ctx.markStale key wb)

/-- The recursion; `rem` counts the levels below the position. -/
def updateSubtree : Nat → Recurse D
  | 0 => updateNode H ctx (splitAndRecurse H ctx fun _ _ _ => .error (.panic "exceeded tree depth"))
  | rem + 1 => updateNode H ctx (splitAndRecurse H ctx (updateSubtree rem))

omit [DecidableEq D] in
/-- On a duplicate key the later value wins. -/
def dedupLast : List (Commitment D) → List (Commitment D)
  | u :: v :: rest => if u.1 = v.1 then dedupLast (v :: rest) else u :: dedupLast (v :: rest)
  | us => us

def apply (commitments : List (Commitment D)) : Guest (D × WriteBatch D) := do
  let (root, wb) ← updateSubtree H ctx DEPTH NodeKey.ROOT (dedupLast (sortByKey commitments)) []
  match root with
  | none => pure (H.emptyHash, wb ++ [.putNode NodeKey.ROOT ctx.version .empty])
  | some node => pure (node.hash H, wb ++ [.putNode NodeKey.ROOT ctx.version node])

end Updater

namespace Tree

variable {D : Type} [DecidableEq D] (H : Hasher D)

omit [DecidableEq D] in
/-- The root hash the store reads at a version; `node` is the read at it. -/
def root (node : Reads D) : D :=
  match node NodeKey.ROOT with
  | some (_, n) => n.hash H
  | none => H.emptyHash

/-- Commits state changes at `version`, with `node` the read at the version
before it. -/
def update (node : Reads D) (commitments : List (Commitment D)) (version : Nat) :
    Guest (D × WriteBatch D) := do
  check (decide (0 < version)) "version 0 is reserved as pre-genesis"
  if commitments.isEmpty then pure (if version - 1 = 0 then H.emptyHash else root H node, [])
  else Updater.apply H ⟨node, version⟩ commitments

end Tree

end Vprogs.Smt
