import Vprogs.Smt.VersionedTree

/-!
Trees of several forks in one store. A read passes over versions of other forks, so
an update on one fork changes no read on another, and repeating an update writes
what is already there.
-/
namespace Vprogs.Smt

namespace SmtStore

variable {D : Type} {s : SmtStore D} {wb : WriteBatch D}

/-- The nodes of a batch are put on top of those in the store. -/
theorem get_apply (s : SmtStore D) (wb : WriteBatch D) (raw : Arr 42) :
    (s.apply wb).nodes.get raw =
      ((({} : SmtStore D).apply wb).nodes.get raw).or (s.nodes.get raw) := by
  induction wb using List.reverseRecOn with
  | nil => rfl
  | append_singleton wb w ih =>
    have happly : ∀ t : SmtStore D, t.apply (wb ++ [w]) = (t.apply wb).write w := fun t => by
      simp [apply]
    rw [happly, happly]
    cases w with
    | putStaleNode _ => exact ih
    | putNode key version node =>
      change ((s.apply wb).nodes.put _ node).get raw =
        (((({} : SmtStore D).apply wb).nodes.put _ node).get raw).or _
      rw [Column.get_put, Column.get_put]
      split
      · rfl
      · exact ih

/-- The nodes of the batch are in the store. -/
def Contains (s : SmtStore D) (wb : WriteBatch D) : Prop :=
  ∀ raw node, (({} : SmtStore D).apply wb).nodes.get raw = some node → s.nodes.get raw = some node

theorem contains_apply (s : SmtStore D) (wb : WriteBatch D) : (s.apply wb).Contains wb := by
  intro raw node h
  rw [get_apply, h, Option.some_or]

/-- Writing a batch again changes nothing. -/
theorem Contains.get_apply (h : s.Contains wb) (raw : Arr 42) :
    (s.apply wb).nodes.get raw = s.nodes.get raw := by
  rw [SmtStore.get_apply]
  cases hget : (({} : SmtStore D).apply wb).nodes.get raw with
  | none => exact Option.none_or
  | some node => exact (h raw node hget).symm

theorem Contains.history_apply (h : s.Contains wb) (key : NodeKey) :
    (s.apply wb).history key = s.history key := funext fun v => h.get_apply (key.encodeWithVersion v)

section Version

variable {version : Nat} (hv : version < 2 ^ 64) (hwb : ∀ w ∈ wb, w.At version)
include hv hwb

theorem decodeVersion_of_get {raw : Arr 42} {node : Node D}
    (h : (({} : SmtStore D).apply wb).nodes.get raw = some node) : NodeKey.decodeVersion raw = version := by
  induction wb using List.reverseRecOn with
  | nil => cases h
  | append_singleton wb w ih =>
    have earlier := ih fun w hw => hwb w (List.mem_append_left _ hw)
    have happly : ({} : SmtStore D).apply (wb ++ [w]) = (({} : SmtStore D).apply wb).write w := by
      simp [apply]
    rw [happly] at h
    have hw := hwb w (by simp)
    cases w with
    | putStaleNode _ => exact earlier h
    | putNode key v n =>
      change ((({} : SmtStore D).apply wb).nodes.put (key.encodeWithVersion v) n).get raw = _ at h
      rw [Column.get_put] at h
      split at h
      · next heq =>
        rw [heq, hw.1, NodeKey.decodeVersion_encodeWithVersion key hv]
      · exact earlier h

/-- Other versions are not touched, at any position. -/
theorem get_apply_of_ne {raw : Arr 42} (hne : NodeKey.decodeVersion raw ≠ version) :
    (s.apply wb).nodes.get raw = s.nodes.get raw := by
  rw [get_apply]
  cases hget : (({} : SmtStore D).apply wb).nodes.get raw with
  | none => exact Option.none_or
  | some node => exact absurd (decodeVersion_of_get hv hwb hget) hne

theorem history_apply_of_ne (key : NodeKey) {u : Nat} (hu : u < 2 ^ 64) (hne : u ≠ version) :
    (s.apply wb).history key u = s.history key u := by
  refine get_apply_of_ne hv hwb ?_
  rwa [NodeKey.decodeVersion_encodeWithVersion key hu]

theorem Contains.apply_of_ne {wb' : WriteBatch D} {version' : Nat} (h : s.Contains wb')
    (hv' : version' < 2 ^ 64) (hwb' : ∀ w ∈ wb', w.At version') (hne : version' ≠ version) :
    (s.apply wb).Contains wb' := by
  intro raw node hget
  rw [get_apply_of_ne hv hwb, h raw node hget]
  rwa [decodeVersion_of_get hv' hwb' hget]

end Version

/-- Two reads that pass the same versions, the later one nothing beyond. -/
theorem node_congr {s' : SmtStore D} {visible visible' : Nat → Bool} {w w' : Nat} (hw : w < 2 ^ 64)
    (hle : w' ≤ w) {key : NodeKey}
    (hsame : ∀ u ≤ w', seen visible (s.history key) u = seen visible' (s'.history key) u)
    (hnone : ∀ u, w' < u → u ≤ w → seen visible (s.history key) u = none) :
    s.node visible w key = s'.node visible' w' key := by
  rw [node_eq_latest _ _ hw, node_eq_latest _ _ (by omega), latest_eq_of_none hle hnone]
  exact latest_congr hsame

end SmtStore

end Vprogs.Smt
