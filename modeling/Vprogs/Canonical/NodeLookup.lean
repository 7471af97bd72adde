import Vprogs.Canonical.PlainSet
import Vprogs.Smt.NodeStore

/-!
Tree nodes on the canonical chain. A lookup passes over versions that are not
canonical, except on a chain whose tip is 0, where it takes any. It finds the node of
the plain set's chain if and only if the key holds nothing on an empty chain and
nothing of an orphan whose bucket is pruned.
-/
namespace Vprogs.Canonical

open Smt CanonicalChainManager
open Runs (run Along)

variable {M D : Type}

/-- The tree column next to the chain manager that numbers the batches. -/
structure RocksDbStore (M D : Type) where
  manager : CanonicalChainManager CanonicalChain M := { chain := .empty }
  smt : SmtStore D := {}

inductive Event (M D : Type) where
  | chain (op : Op M)
  | write (w : SmtWrite D)
  deriving DecidableEq

def Event.op? : Event M D → Option (Op M)
  | .chain op => some op
  | .write _ => none

def Event.write? : Event M D → Option (SmtWrite D)
  | .chain _ => none
  | .write w => some w

namespace RocksDbStore

def snapshot (s : RocksDbStore M D) : Snapshot := s.manager.chain.snapshot

/-- On an empty chain no version is tracked, and all are taken. -/
def node (s : RocksDbStore M D) (key : NodeKey) (maxVersion : Nat) (snapshot : Snapshot) :
    Option (Nat × Node D) :=
  let versionsTracked := decide (0 < snapshot.tip)
  s.smt.node (fun v => !versionsTracked || s.manager.chain.isCanonical snapshot v) maxVersion key

variable [BatchMetadata M]

def step (debug : Bool) (s : RocksDbStore M D) : Event M D → Option (RocksDbStore M D)
  | .chain op => (s.manager.step (CanonicalChain.oracle debug) op).map ({ s with manager := · })
  | .write w => some { s with smt := s.smt.write w }

/-- Chain operations and node writes do not meet. -/
theorem run_eq (debug : Bool) (s : RocksDbStore M D) (events : List (Event M D)) :
    run (step debug) s events =
      (run (CanonicalChainManager.step (CanonicalChain.oracle debug)) s.manager
        (events.filterMap Event.op?)).map fun m =>
        ⟨m, s.smt.apply (events.filterMap Event.write?)⟩ := by
  induction events generalizing s with
  | nil => rfl
  | cons e events ih =>
    cases e with
    | chain op =>
      change (s.step debug (.chain op)).bind _ = Option.map _ (Option.bind _ _)
      rw [step, Option.bind_map, Option.map_bind]
      exact congrArg _ (funext fun m => ih { s with manager := m })
    | write w => exact ih { s with smt := s.smt.write w }

end RocksDbStore

/-! ### The nodes written -/

/-- The last node written at a position and version. -/
def written (key : NodeKey) (version : Nat) : WriteBatch D → Option (Node D)
  | [] => none
  | .putNode k v node :: wb =>
    (written key version wb).or (if k = key ∧ v = version then some node else none)
  | .putStaleNode _ :: wb => written key version wb

/-- Levels are 16 bits wide and versions 64. -/
def Sized : SmtWrite D → Prop
  | .putNode key version _ => key.level < 2 ^ 16 ∧ version < 2 ^ 64
  | .putStaleNode _ => True

instance : DecidablePred (Sized (D := D)) := fun w =>
  match w with
  | .putNode key version _ => inferInstanceAs (Decidable (key.level < 2 ^ 16 ∧ version < 2 ^ 64))
  | .putStaleNode _ => inferInstanceAs (Decidable True)

theorem history_apply_eq_written {wb : WriteBatch D} (hsized : ∀ w ∈ wb, Sized w) {key : NodeKey}
    (hkey : key.level < 2 ^ 16) {v : Nat} (hv : v < 2 ^ 64) (s : SmtStore D) :
    (s.apply wb).history key v = (written key v wb).or (s.history key v) := by
  induction wb generalizing s with
  | nil => rfl
  | cons w wb ih =>
    have ⟨hw, hwb⟩ := List.forall_mem_cons.mp hsized
    change ((s.write w).apply wb).history key v = _
    rw [ih hwb]
    cases w with
    | putStaleNode stale => rfl
    | putNode k u node =>
      have hsame : key.encodeWithVersion v = k.encodeWithVersion u ↔ k = key ∧ u = v := by
        constructor
        · intro heq
          have ⟨hk, hu⟩ := NodeKey.encodeWithVersion_injective hkey hw.1 hv hw.2 heq
          exact ⟨hk.symm, hu.symm⟩
        · intro ⟨hk, hu⟩
          rw [hk, hu]
      rw [written, Option.or_assoc]
      congr 1
      change (s.nodes.put (k.encodeWithVersion u) node).get (key.encodeWithVersion v) = _
      rw [Column.get_put]
      simp only [hsame]
      split
      · rfl
      · rfl

/-! ### The lookup -/

/-- The oracle knows that a version is on the chain or not: the chain is not empty,
and a version whose bucket is pruned belongs to it. -/
def Known (c : CanonicalChain) (s : Finset Nat) (v : Nat) : Prop :=
  s.Nonempty ∧ (c.bitAt v = none → 0 < v → v ≤ c.tip → v ∈ s)

theorem visible_eq_iff_known {c : CanonicalChain} {s : Finset Nat} {seen bound : Nat}
    (h : Agrees c s seen bound) (v : Nat) :
    (!decide (0 < c.tip) || c.isCanonical c.snapshot v) = decide (v ∈ s) ↔ Known c s v := by
  by_cases hempty : s = ∅
  · have htip : c.tip = 0 := h.tip.trans (by rw [hempty]; rfl)
    have hnot : ¬ Known c s v := fun hknown => hknown.1.ne_empty hempty
    simp only [htip, hempty, Nat.lt_irrefl, decide_false, Bool.not_false, Bool.true_or,
      Finset.notMem_empty, Bool.true_eq_false, false_iff]
    rwa [hempty] at hnot
  · have ⟨i, hi⟩ := Finset.nonempty_iff_ne_empty.mpr hempty
    have htip : 0 < c.tip := Nat.lt_of_lt_of_le (h.pos i hi) (h.le_tip hi)
    have hmem : v ∈ s → 0 < v ∧ v ≤ c.tip := fun hv => ⟨h.pos v hv, h.le_tip hv⟩
    rw [decide_eq_true htip, Bool.not_true, Bool.false_or, h.laid.isCanonical_eq, Bool.eq_iff_iff,
      Bool.and_eq_true, decide_eq_true_eq, decide_eq_true_eq]
    cases hbit : c.bitAt v with
    | none =>
      rw [Option.getD_none]
      constructor
      · intro hiff
        exact ⟨⟨i, hi⟩, fun _ hpos hle => hiff.mp ⟨⟨hpos, hle⟩, rfl⟩⟩
      · intro hknown
        exact ⟨fun hrange => hknown.2 hbit hrange.1.1 hrange.1.2, fun hv => ⟨hmem hv, rfl⟩⟩
    | some b =>
      rw [Option.getD_some]
      refine iff_of_true ?_ ⟨⟨i, hi⟩, fun hnone => by rw [hbit] at hnone; cases hnone⟩
      constructor
      · intro ⟨hrange, hb⟩
        exact (h.bit v hrange.1 b hbit).mp hb
      · intro hv
        exact ⟨hmem hv, (h.bit v (hmem hv).1 b hbit).mpr hv⟩

variable [BatchMetadata M]

/-- In every build a lookup of a key finds its greatest canonical version up to every
bound if and only if the oracle knows each version stored there. -/
theorem node_is_latest_canonical_iff (debug : Bool) (events : List (Event M D))
    (hsized : ∀ w ∈ events.filterMap Event.write?, Sized w)
    (hvalid : Along (step plain) Valid { chain := ∅ } (events.filterMap Event.op?))
    (hforward : Along (step plain) Forward { chain := ∅ } (events.filterMap Event.op?)) :
    ∃ s p, run (RocksDbStore.step debug) {} events = some s ∧
      run (step plain) { chain := ∅ } (events.filterMap Event.op?) = some p ∧
      ∀ key : NodeKey, key.level < 2 ^ 16 →
        ((∀ maxVersion < 2 ^ 64, s.node key maxVersion s.snapshot =
            latest (seen (· ∈ p.chain) fun v => written key v (events.filterMap Event.write?)) maxVersion) ↔
          ∀ v < 2 ^ 64, written key v (events.filterMap Event.write?) ≠ none →
            Known s.manager.chain p.chain v) := by
  have ⟨m, p, hm, hp, hlast⟩ := run_follows debug follows_empty hvalid hforward
  refine ⟨_, p, by rw [RocksDbStore.run_eq, hm]; rfl, hp, fun key hkey => ?_⟩
  generalize hwrites : events.filterMap Event.write? = writes at *
  have hhistory : ∀ v < 2 ^ 64, (SmtStore.apply {} writes).history key v = written key v writes := by
    intro v hv
    rw [history_apply_eq_written hsized hkey hv]
    exact Option.or_none
  have hnode : ∀ w < 2 ^ 64, ({ manager := m, smt := SmtStore.apply {} writes } : RocksDbStore M D).node
      key w m.chain.snapshot = latest (seen (fun v => !decide (0 < m.chain.tip) ||
        m.chain.isCanonical m.chain.snapshot v) fun v => written key v writes) w := by
    intro w hw
    rw [RocksDbStore.node, SmtStore.node_eq_latest _ _ hw]
    refine latest_congr fun u hu => ?_
    rw [seen, seen, hhistory u (Nat.lt_of_le_of_lt hu hw)]
    rfl
  refine Iff.trans (forall₂_congr fun w hw => ?_) (latest_seen_eq_iff.trans
    (forall₂_congr fun v _ => imp_congr_right fun _ => visible_eq_iff_known hlast.agrees v))
  exact (congrArg (· = _) (hnode w hw)).to_iff

/-- The first batch writes the root and is taken back. -/
def takenBack : List (Event NumberedBlock Nat) :=
  [.chain (.append ⟨1, 0⟩), .write (.putNode ⟨0, 0⟩ 1 .empty), .chain (.rollback 0)]

/-- The empty chain still reads the orphan's node. -/
theorem takenBack_reads_orphan :
    (∀ w ∈ takenBack.filterMap Event.write?, Sized w) ∧
      Along (step plain) Valid { chain := ∅ } (takenBack.filterMap Event.op?) ∧
      Along (step plain) Forward { chain := ∅ } (takenBack.filterMap Event.op?) ∧
      ∃ s p, run (RocksDbStore.step true) {} takenBack = some s ∧
        run (step plain) { chain := ∅ } (takenBack.filterMap Event.op?) = some p ∧
        s.node ⟨0, 0⟩ 1 s.snapshot = some (1, .empty) ∧ 1 ∉ p.chain := by
  have hrun : ((run (RocksDbStore.step true) {} takenBack).bind fun s =>
      (run (step plain) { chain := ∅ } (takenBack.filterMap Event.op?)).map fun p => decide
        (s.node ⟨0, 0⟩ 1 s.snapshot = some (1, .empty) ∧ 1 ∉ p.chain)) = some true := by
    decide +kernel
  have ⟨s, hs, hmap⟩ := Option.bind_eq_some_iff.mp hrun
  have ⟨p, hp, heq⟩ := Option.map_eq_some_iff.mp hmap
  exact ⟨by decide +kernel, by decide +kernel, by decide +kernel, s, p, hs, hp, of_decide_eq_true heq⟩

/-- Two batches write the root; the second is taken back. -/
def reverted : List (Event NumberedBlock Nat) :=
  [.chain (.append ⟨1, 0⟩), .write (.putNode ⟨0, 0⟩ 1 .empty), .chain (.append ⟨2, 1⟩),
    .write (.putNode ⟨0, 0⟩ 2 .empty), .chain (.rollback 1)]

theorem reverted_reads_first :
    ∃ s p, run (RocksDbStore.step true) {} reverted = some s ∧
      run (step plain) { chain := ∅ } (reverted.filterMap Event.op?) = some p ∧
      ∀ maxVersion < 2 ^ 64, s.node ⟨0, 0⟩ maxVersion s.snapshot = latest (seen (· ∈ p.chain) fun v =>
        written ⟨0, 0⟩ v (reverted.filterMap Event.write?)) maxVersion := by
  have ⟨s, p, hs, hp, hiff⟩ := node_is_latest_canonical_iff true reverted
    (by decide +kernel) (by decide +kernel) (by decide +kernel)
  refine ⟨s, p, hs, hp, (hiff ⟨0, 0⟩ (by decide)).mpr fun v _ hne => ?_⟩
  have hkept : ((run (RocksDbStore.step true) {} reverted).bind fun s =>
      (run (step plain) { chain := ∅ } (reverted.filterMap Event.op?)).map fun p => decide
        (1 ∈ p.chain ∧ s.manager.chain.bitAt 1 ≠ none ∧ s.manager.chain.bitAt 2 ≠ none)) = some true := by
    decide +kernel
  rw [hs, hp] at hkept
  have ⟨hmem, hfirst, hsecond⟩ := of_decide_eq_true (Option.some.inj hkept)
  refine ⟨⟨1, hmem⟩, fun hnone => ?_⟩
  have hversion : v = 1 ∨ v = 2 := by
    by_contra hother
    refine hne ?_
    simp only [reverted, List.filterMap, Event.write?, written]
    rw [if_neg (by omega), if_neg (by omega)]
    rfl
  match hversion with
  | .inl h => exact absurd (h ▸ hnone) hfirst
  | .inr h => exact absurd (h ▸ hnone) hsecond

end Vprogs.Canonical
