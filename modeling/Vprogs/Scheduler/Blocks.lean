import Vprogs.Scheduler.StateStore

/-!
Blocks and what executing them one after the other means. A block hash names its
transactions and its parent, so the blocks form a tree; their ids number them in
the order they are first appended, and 0 is the state before any block.
-/
namespace Vprogs.Scheduler

open Abi

/-- The transactions of a block, as far as storage sees them: the resources they
declare, and for given data of these the new data of each resource whose version
advances. A transaction runs once its own resources are read, so the final data of
a resource depends only on those it `needs`. -/
structure Body where
  resources : List ResourceId
  distinct : resources.Nodup
  needs : ResourceId → List ResourceId
  run : (ResourceId → Bytes) → ResourceId → Option Bytes
  run_congr : ∀ {f g : ResourceId → Bytes} {id : ResourceId},
    (∀ x ∈ needs id, f x = g x) → run f id = run g id

structure Blocks where
  parent : Nat → Nat
  body : Nat → Body
  parent_lt : ∀ {b}, 0 < b → parent b < b

/-- The version and data of every resource; no data has version 0. -/
abbrev Snapshot := ResourceId → StateVersion

/-- A resource without data does not exist, whatever removed it. -/
def StateVersion.norm (st : StateVersion) : StateVersion := if st.data.isEmpty then .empty else st

namespace Body

variable (body : Body)

/-- A resource that is not declared is not read. -/
def reads (S : Snapshot) : ResourceId → Bytes := fun id =>
  if id ∈ body.resources then (S id).data else []

def update (S : Snapshot) (id : ResourceId) : Option Bytes :=
  if id ∈ body.resources then body.run (body.reads S) id else none

def apply (index : Nat) (S : Snapshot) : Snapshot := fun id =>
  match body.update S id with
  | none => S id
  | some data => StateVersion.norm ⟨index, data⟩

end Body

namespace Blocks

variable (B : Blocks)

/-- The state a block leaves when its ancestors and it run in order. -/
def snapshot (b : Nat) : Snapshot :=
  if 0 < b then (B.body b).apply b (snapshot (B.parent b)) else fun _ => .empty
termination_by b
decreasing_by exact B.parent_lt ‹_›

/-- What the block writes to a resource. -/
def updateAt (b : Nat) (id : ResourceId) : Option Bytes :=
  (B.body b).update (B.snapshot (B.parent b)) id

/-- `a` is `b` or an ancestor of it. -/
inductive Anc : Nat → Nat → Prop
  | refl {b : Nat} : Anc b b
  | step {a b : Nat} (hb : 0 < b) (h : Anc a (B.parent b)) : Anc a b

variable {B} {a b c t : Nat} {id : ResourceId}

theorem snapshot_zero : B.snapshot 0 = fun _ => .empty := by
  rw [snapshot, if_neg (Nat.lt_irrefl 0)]

theorem snapshot_pos (hb : 0 < b) : B.snapshot b = (B.body b).apply b (B.snapshot (B.parent b)) := by
  rw [snapshot, if_pos hb]

theorem snapshot_of_none (hb : 0 < b) (h : B.updateAt b id = none) :
    B.snapshot b id = B.snapshot (B.parent b) id := by
  rw [snapshot_pos hb, Body.apply]
  rw [updateAt] at h
  rw [h]

theorem snapshot_of_some (hb : 0 < b) {data : Bytes} (h : B.updateAt b id = some data) :
    B.snapshot b id = StateVersion.norm ⟨b, data⟩ := by
  rw [snapshot_pos hb, Body.apply]
  rw [updateAt] at h
  rw [h]

theorem resources_of_updateAt (h : B.updateAt b id ≠ none) : id ∈ (B.body b).resources := by
  by_contra hne
  exact h (if_neg hne)

namespace Anc

theorem le (h : B.Anc a b) : a ≤ b := by
  induction h with
  | refl => exact Nat.le_refl _
  | step hb _ ih =>
    have := B.parent_lt hb
    omega

theorem trans (h : B.Anc a b) (h' : B.Anc b c) : B.Anc a c := by
  induction h' with
  | refl => exact h
  | step hb _ ih => exact .step hb ih

theorem parent (hb : 0 < b) : B.Anc (B.parent b) b := .step hb .refl

/-- A proper ancestor is an ancestor of the parent. -/
theorem of_lt (h : B.Anc a b) (hlt : a < b) : B.Anc a (B.parent b) := by
  cases h with
  | refl => exact absurd hlt (Nat.lt_irrefl _)
  | step _ h => exact h

/-- The ancestors of a block are on one line. -/
theorem of_le (ha : B.Anc a t) (hb : B.Anc b t) (hle : a ≤ b) : B.Anc a b := by
  induction hb with
  | refl => exact ha
  | @step t ht hb ih =>
    have hlt : a < t := Nat.lt_of_le_of_lt (Nat.le_trans hle hb.le) (B.parent_lt ht)
    exact ih (ha.of_lt hlt)

theorem zero (b : Nat) : B.Anc 0 b := by
  induction b using Nat.strongRecOn with
  | ind b ih =>
    match Nat.eq_zero_or_pos b with
    | .inl h => exact h ▸ .refl
    | .inr h => exact .step h (ih _ (B.parent_lt h))

end Anc

/-- Blocks that do not write a resource leave it as it is. -/
theorem snapshot_eq_of_unwritten (h : B.Anc a b) (hnone : ∀ c, B.Anc c b → a < c → B.updateAt c id = none)
    : B.snapshot b id = B.snapshot a id := by
  induction h with
  | refl => rfl
  | @step b hb h ih =>
    have hlt : a < b := Nat.lt_of_le_of_lt h.le (B.parent_lt hb)
    rw [snapshot_of_none hb (hnone b .refl hlt)]
    exact ih fun c hc hac => hnone c (hc.trans (.parent hb)) hac

theorem norm_data (st : StateVersion) : st.norm.data = st.data := by
  unfold StateVersion.norm
  split
  · next h => exact (List.isEmpty_iff.mp h).symm
  · rfl

theorem norm_of_ne {st : StateVersion} (h : st.data ≠ []) : st.norm = st := by
  rw [StateVersion.norm, if_neg (by simpa using h)]

theorem norm_of_eq {st : StateVersion} (h : st.data = []) : st.norm = .empty := by
  rw [StateVersion.norm, if_pos (by simpa using h)]

/-- Data in a snapshot was written by the ancestor its version names. -/
theorem written_by (h : (B.snapshot b id).data ≠ []) :
    B.Anc (B.snapshot b id).version b ∧ 0 < (B.snapshot b id).version ∧
      B.updateAt (B.snapshot b id).version id = some (B.snapshot b id).data := by
  induction b using Nat.strongRecOn with
  | ind b ih =>
    match Nat.eq_zero_or_pos b with
    | .inl hzero =>
      rw [hzero, snapshot_zero] at h
      exact absurd rfl h
    | .inr hb =>
      cases hup : B.updateAt b id with
      | none =>
        rw [snapshot_of_none hb hup] at h ⊢
        have ⟨hanc, hpos, hwrite⟩ := ih _ (B.parent_lt hb) h
        exact ⟨.step hb hanc, hpos, hwrite⟩
      | some data =>
        rw [snapshot_of_some hb hup] at h ⊢
        have hne : data ≠ [] := by rwa [norm_data] at h
        rw [norm_of_ne hne]
        exact ⟨.refl, hb, hup⟩

/-- What a later block writes supersedes what was there. -/
theorem version_ge_of_updateAt (hc : B.Anc c b) (hpos : 0 < c) (hup : B.updateAt c id ≠ none)
    (h : (B.snapshot b id).data ≠ []) : c ≤ (B.snapshot b id).version := by
  induction hc with
  | refl =>
    have ⟨data, hdata⟩ := Option.ne_none_iff_exists'.mp hup
    rw [snapshot_of_some hpos hdata] at h ⊢
    rw [norm_of_ne (by rwa [norm_data] at h)]
  | @step b hb hc ih =>
    cases hup' : B.updateAt b id with
    | none =>
      rw [snapshot_of_none hb hup'] at h ⊢
      exact ih h
    | some data =>
      rw [snapshot_of_some hb hup'] at h ⊢
      rw [norm_of_ne (by rwa [norm_data] at h)]
      exact Nat.le_trans hc.le (Nat.le_of_lt (B.parent_lt hb))

/-- Snapshots hold no leftovers of removed data. -/
theorem snapshot_of_nil (h : (B.snapshot b id).data = []) : B.snapshot b id = .empty := by
  induction b using Nat.strongRecOn with
  | ind b ih =>
    match Nat.eq_zero_or_pos b with
    | .inl hzero => rw [hzero, snapshot_zero]
    | .inr hb =>
      cases hup : B.updateAt b id with
      | none =>
        rw [snapshot_of_none hb hup] at h ⊢
        exact ih _ (B.parent_lt hb) h
      | some data =>
        rw [snapshot_of_some hb hup] at h ⊢
        exact norm_of_eq (by rwa [norm_data] at h)

theorem norm_snapshot (b : Nat) (id : ResourceId) : (B.snapshot b id).norm = B.snapshot b id := by
  by_cases h : (B.snapshot b id).data = []
  · rw [snapshot_of_nil h]
    rfl
  · exact norm_of_ne h

theorem version_le (b : Nat) (id : ResourceId) : (B.snapshot b id).version ≤ b := by
  by_cases h : (B.snapshot b id).data = []
  · rw [snapshot_of_nil h]
    exact Nat.zero_le b
  · exact (written_by h).1.le

/-- Version 0 stands for a resource without data. -/
theorem version_eq_zero_iff : (B.snapshot b id).version = 0 ↔ (B.snapshot b id).data = [] := by
  constructor
  · intro h
    by_contra hne
    exact Nat.ne_of_gt (written_by hne).2.1 h
  · intro h
    rw [snapshot_of_nil h]
    rfl

end Blocks

end Vprogs.Scheduler
