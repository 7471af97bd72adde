import Vprogs.Scheduler.Agreement

/-!
A pruning pass over a range with orphans. The state columns tell an orphan's
version from a canonical one and keep what is read. The markers of the tree do not:
an orphan marked the nodes its fork shared with the chain, and the pass deletes
them unless the chain has replaced them as well.
-/
namespace Vprogs.Scheduler

open Abi Smt
open Runs (run Along)

namespace System

variable {D : Type} [DecidableEq D] {B : Blocks} {H : Hasher D} {hash : Bytes → D}
  {cfg : Config} {s s' : System D}

/-- Canonical reads of the tree at `w` answer as before. -/
structure SameTree (H : Hasher D) (s s' : System D) (w : Nat) : Prop where
  node : ∀ key, s'.smt.node s'.isCanonical w key = s.smt.node s.isCanonical w key
  root : s'.smt.root H s'.isCanonical w = s.smt.root H s.isCanonical w
  prove : ∀ keys, Tree.prove H (s'.smt.node s'.isCanonical w) keys =
    Tree.prove H (s.smt.node s.isCanonical w) keys

omit [DecidableEq D] in
/-- The state columns answer as before, for the latest pointers and for the blocks
of the chain after `upper`. -/
structure SameState (B : Blocks) (s s' : System D) (upper : Nat) : Prop where
  pointer : ∀ r, s'.store.latestPtr r = s.store.latestPtr r
  version : ∀ r v, s.store.latestPtr r = some v → s'.store.version v r = s.store.version v r
  data : ∀ r, StateVersion.fromLatestData s'.store r = StateVersion.fromLatestData s.store r
  live : ∀ b, upper < b → B.Anc b s.chain.tip → ∀ r, (B.snapshot b r).data ≠ [] →
    s'.store.version (B.snapshot b r).version r = s.store.version (B.snapshot b r).version r

omit [DecidableEq D] in
theorem SameTree.of_node {w : Nat}
    (h : ∀ key, s'.smt.node s'.isCanonical w key = s.smt.node s.isCanonical w key) :
    SameTree H s s' w where
  node := h
  root := by rw [SmtStore.root, SmtStore.root, funext h]
  prove keys := by rw [funext h]

omit [DecidableEq D] in
/-- The tree's reads after the range survive the pass if and only if the chain has
replaced what the range's blocks replaced. -/
theorem sameTree_prune_iff {p : Pass} (hp : s.pass = some p) (hupper : p.upper + 1 < 2 ^ 64)
    (hstep : s.prune = some s') :
    (∀ w, p.upper < w → w < 2 ^ 64 → SameTree H s s' w) ↔
      s.smt.Superseded s.isCanonical p.lower p.upper := by
  rw [prune, hp] at hstep
  cases hstep
  rw [← SmtStore.node_pruneRange_iff s.isCanonical hupper]
  exact ⟨fun h w hw hlt => (h w hw hlt).node, fun h w hw hlt => .of_node (h w hw hlt)⟩

omit [DecidableEq D] in
theorem sameState_prune {p : Pass} (h : s.Invariant B) (hp : s.pass = some p)
    (hsettled : Settled cfg s .prune) (hstep : s.prune = some s') :
    SameState B s s' p.upper := by
  have ⟨hflight, hview⟩ := h.settled_pass hsettled hp
  have agree := h.pass_agree hview
  have settled := h.pass_settled hflight
  have latest : ∀ r, s'.store.latestPtr r = s.store.latestPtr r := by
    rw [prune, hp] at hstep
    cases hstep
    intro r
    rw [StateStore.latestPtr, StateStore.latest_prune]
    rfl
  have version : ∀ r v, s.store.latestPtr r = some v → s'.store.version v r = s.store.version v r := by
    rw [prune, hp] at hstep
    cases hstep
    intro r v hv
    rw [h.stored.latest (Nat.zero_le _), StateStore.repointed] at hv
    split at hv
    · cases hv
    · next hne =>
      cases hv
      exact h.stored.live_prune agree h.last (fun m hlower hupper hm => (settled m hlower hupper hm).le)
        (mt Blocks.version_eq_zero_iff.mpr hne)
  refine ⟨latest, version, fun r => ?_, fun b hb hanc r hne => ?_⟩
  · unfold StateVersion.fromLatestData
    rw [latest]
    cases hv : s.store.latestPtr r with
    | none => rfl
    | some v =>
      change StateVersion.mk v ((s'.store.version v r).getD []) = _
      rw [version r v hv]
      rfl
  · rw [prune, hp] at hstep
    cases hstep
    exact h.stored.live_prune agree hanc (fun m _ hupper _ => by omega) hne

/-- A settled run's pass over any range, orphans included, keeps what canonical
reads after the range resolve if and only if the chain has replaced every node
that the range's blocks replaced. -/
theorem orphan_pass_keeps_reads_iff {events : List Event} {p : Pass}
    (hsettled : Along (step B H hash cfg) (Settled cfg) {} events)
    (hrun : run (step B H hash cfg) {} events = some s) (hp : s.pass = some p)
    (hpass : Settled cfg s .prune) (hupper : p.upper + 1 < 2 ^ 64)
    (hstep : s.step B H hash cfg .prune = some s') :
    ((∀ w, p.upper < w → w < 2 ^ 64 → SameTree H s s' w) ∧ SameState B s s' p.upper) ↔
      s.smt.Superseded s.isCanonical p.lower p.upper := by
  have hstate := sameState_prune (run_inv (invariant_init B) hsettled hrun) hp hpass hstep
  rw [← sameTree_prune_iff hp hupper hstep]
  exact and_iff_left hstate

namespace Sample

/-- Block 3 replaces block 2, which wrote to another part of the tree. -/
def divided : Blocks where
  parent b := if b = 3 then 1 else b - 1
  body
    | 1 => writing [(byte 0, [1]), (byte 64, [2]), (byte 128, [3])] (by decide)
    | 2 => writing [(byte 0, [4])] (by decide)
    | 3 => writing [(byte 128, [5])] (by decide)
    | _ => idle
  parent_lt := @fork_parent_lt

/-- Up to the claim of a pass over blocks 1 and 2. -/
def orphaned (B : Blocks) : List Event :=
  committed B 1 ++ committed B 2 ++ [.rollback 1] ++ committed B 3 ++ [.finalize 3, .claim 10]

/-- The pass deletes the leaf of a resource that the chain last wrote in block 1,
and the tree no longer proves it. -/
theorem orphan_pass_deletes_canonical_node :
    codeHasher.Ideal ∧ Function.Injective dataHash ∧
      Along (step divided codeHasher dataHash ⟨true, true⟩) (Settled ⟨true, true⟩) {} (orphaned divided ++ [.prune]) ∧
      ∃ s s', run (step divided codeHasher dataHash ⟨true, true⟩) {} (orphaned divided) = some s ∧
        s.step divided codeHasher dataHash ⟨true, true⟩ .prune = some s' ∧
        s.chain.ids = [1, 3] ∧ s.pass.map (fun p => (p.lower, p.upper)) = some (1, 2) ∧
        (s.smt.node s.isCanonical 3 ⟨2, 0⟩).isSome = true ∧
        s.provedValue codeHasher (byte 0) = some (dataHash [1]) ∧
        s'.smt.node s'.isCanonical 3 ⟨2, 0⟩ = none ∧
        s'.provedValue codeHasher (byte 0) = none := by
  have hrun : ((run (step divided codeHasher dataHash ⟨true, true⟩) {} (orphaned divided)).bind fun s =>
      (s.step divided codeHasher dataHash ⟨true, true⟩ .prune).map fun s' => decide
        (s.chain.ids = [1, 3] ∧ s.pass.map (fun p => (p.lower, p.upper)) = some (1, 2) ∧
          (s.smt.node s.isCanonical 3 ⟨2, 0⟩).isSome = true ∧
          s.provedValue codeHasher (byte 0) = some (dataHash [1]) ∧
          s'.smt.node s'.isCanonical 3 ⟨2, 0⟩ = none ∧
          s'.provedValue codeHasher (byte 0) = none)) = some true := by
    decide +kernel
  have ⟨s, hs, hmap⟩ := Option.bind_eq_some_iff.mp hrun
  have ⟨s', hs', heq⟩ := Option.map_eq_some_iff.mp hmap
  exact ⟨codeHasher_ideal, dataHash_injective, by decide +kernel, s, s', hs, hs', of_decide_eq_true heq⟩

/-- Both blocks wrote the same resource: the chain has replaced what the orphan did. -/
theorem orphan_pass_keeps_shared :
    ∃ s s' : System Nat, run (step fork codeHasher dataHash ⟨true, false⟩) {} (orphaned fork) = some s ∧
      s.step fork codeHasher dataHash ⟨true, false⟩ .prune = some s' ∧ s.chain.ids = [1, 3] ∧
      (∀ w, 2 < w → w < 2 ^ 64 → SameTree codeHasher s s' w) ∧ SameState fork s s' 2 := by
  have hrun : ((run (step fork codeHasher dataHash ⟨true, false⟩) {} (orphaned fork)).bind fun s =>
      (s.step fork codeHasher dataHash ⟨true, false⟩ .prune).map fun _ => decide
        (s.chain.ids = [1, 3] ∧ s.pass.map (fun p => (p.lower, p.upper)) = some (1, 2) ∧
          Settled ⟨true, false⟩ s .prune ∧ s.smt.Superseded s.isCanonical 1 2)) = some true := by
    decide +kernel
  have ⟨s, hs, hmap⟩ := Option.bind_eq_some_iff.mp hrun
  have ⟨s', hs', heq⟩ := Option.map_eq_some_iff.mp hmap
  have ⟨hids, hbounds, hpass, hsuperseded⟩ := of_decide_eq_true heq
  have ⟨p, hp, hpair⟩ := Option.map_eq_some_iff.mp hbounds
  have ⟨hlower, hupper⟩ := Prod.mk.inj hpair
  rw [← hlower, ← hupper] at hsuperseded
  have ⟨htree, hstate⟩ := (orphan_pass_keeps_reads_iff (by decide +kernel) hs hp hpass
    (by rw [hupper]; decide) hs').mpr hsuperseded
  rw [hupper] at htree hstate
  exact ⟨s, s', hs, hs', hids, htree, hstate⟩

end Sample

end System

end Vprogs.Scheduler
