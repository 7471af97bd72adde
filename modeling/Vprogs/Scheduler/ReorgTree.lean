import Vprogs.Lane.Sequential
import Vprogs.Scheduler.Stored
import Vprogs.Scheduler.System

/-!
The state tree over a tree of blocks. The versions of one line of blocks hold the
map of its commitments, whatever other forks have stored beside it.
-/
namespace Vprogs.Scheduler

open Abi Smt

open Lane.BatchProcessor (keyOfId)

namespace Blocks

variable {D : Type} (B : Blocks) (H : Hasher D) (hash : Bytes → D)

/-- What a block commits to the tree. -/
def commitments (b : Nat) : List (Commitment D) :=
  (B.body b).resources.filterMap fun r =>
    (B.updateAt b r).map fun data => (keyOfId r, valueHash H hash data)

/-- The map a block leaves. -/
def map [DecidableEq D] (b : Nat) : StateMap H :=
  if 0 < b then (map (B.parent b)).setAll (B.commitments H hash b) else StateMap.empty H
termination_by b
decreasing_by exact B.parent_lt ‹_›

open Classical in
/-- The versions of the blocks up to `b`. -/
noncomputable def line (b v : Nat) : Bool := decide (0 < v ∧ B.Anc v b)

variable {B H hash} {b c : Nat}

theorem line_iff {v : Nat} : B.line b v = true ↔ 0 < v ∧ B.Anc v b := by
  simp only [line, decide_eq_true_eq]

theorem map_zero [DecidableEq D] : B.map H hash 0 = StateMap.empty H := by
  rw [map, if_neg (Nat.lt_irrefl 0)]

theorem map_pos [DecidableEq D] (hb : 0 < b) :
    B.map H hash b = (B.map H hash (B.parent b)).setAll (B.commitments H hash b) := by
  rw [map, if_pos hb]

theorem mem_commitments {r : ResourceId} {v : D} :
    (keyOfId r, v) ∈ B.commitments H hash b ↔
      ∃ data, B.updateAt b r = some data ∧ v = valueHash H hash data := by
  rw [commitments, List.mem_filterMap]
  constructor
  · intro ⟨r', _, h⟩
    have ⟨data, hdata, heq⟩ := Option.map_eq_some_iff.mp h
    have ⟨hkey, hv⟩ := Prod.mk.inj heq
    have hr := Lane.keyOfId_injective hkey
    exact ⟨data, hr ▸ hdata, hv.symm⟩
  · intro ⟨data, hdata, hv⟩
    refine ⟨r, resources_of_updateAt (by rw [hdata]; exact Option.some_ne_none _), ?_⟩
    rw [hdata, hv]
    rfl

/-- The tree's value for a resource is the hash of its data. -/
theorem map_get [DecidableEq D] (b : Nat) (r : ResourceId) :
    (B.map H hash b).get (keyOfId r) = valueHash H hash (B.snapshot b r).data := by
  induction b using Nat.strongRecOn with
  | ind b ih =>
    match Nat.eq_zero_or_pos b with
    | .inl hzero =>
      rw [hzero, map_zero, snapshot_zero]
      rfl
    | .inr hb =>
      rw [map_pos hb, StateMap.get_setAll]
      cases hlast : ((B.commitments H hash b).filter fun u => u.1 == keyOfId r).getLast? with
      | some u =>
        have hmem := List.mem_of_getLast? hlast
        have ⟨hu, hkey⟩ := List.mem_filter.mp hmem
        have hu' : (keyOfId r, u.2) ∈ B.commitments H hash b := by
          rw [← eq_of_beq hkey]
          exact hu
        have ⟨data, hdata, hv⟩ := mem_commitments.mp hu'
        rw [snapshot_of_some hb hdata, norm_data]
        exact hv
      | none =>
        have hnone : B.updateAt b r = none := by
          by_contra hne
          have ⟨data, hdata⟩ := Option.ne_none_iff_exists'.mp hne
          have hmem : (keyOfId r, valueHash H hash data) ∈ B.commitments H hash b :=
            mem_commitments.mpr ⟨data, hdata, rfl⟩
          have hfilter := List.getLast?_eq_none_iff.mp hlast
          exact List.filter_eq_nil_iff.mp hfilter _ hmem (beq_self_eq_true _)
        rw [snapshot_of_none hb hnone]
        exact ih _ (B.parent_lt hb)

/-- The versions of a block's line below it are those of its parent's. -/
theorem node_line_parent {smt : SmtStore D} (hpos : 0 < b) (hb : b < 2 ^ 64) :
    smt.node (B.line b) (b - 1) = smt.node (B.line (B.parent b)) (B.parent b) := by
  have hlt := B.parent_lt hpos
  refine funext fun key => SmtStore.node_congr (by omega) (by omega) (fun u hu => ?_) fun u hlt' hle => ?_
  · have hline : B.line b u = B.line (B.parent b) u := by
      rw [Bool.eq_iff_iff, line_iff, line_iff]
      exact and_congr_right fun _ => ⟨fun h => h.of_lt (by omega), fun h => h.trans (.parent hpos)⟩
    rw [seen, seen, hline]
  · rw [seen, if_neg]
    intro h
    have hanc := ((line_iff.mp h).2.of_lt (by omega)).le
    omega

/-- Reads on a line depend on the versions of that line only. -/
theorem node_line_congr {smt smt' : SmtStore D} (hb : b < 2 ^ 64)
    (h : ∀ (key : NodeKey) u, 0 < u → B.Anc u b → smt'.history key u = smt.history key u) :
    smt'.node (B.line b) b = smt.node (B.line b) b := by
  refine funext fun key => SmtStore.node_congr hb (Nat.le_refl b) (fun u hu => ?_) fun u hlt hle => ?_
  · unfold seen
    split
    · next hline => exact h key u (line_iff.mp hline).1 (line_iff.mp hline).2
    · rfl
  · omega

end Blocks

/-- The nodes stored for the blocks that have committed at some time: each line
holds its map, and committing a block again would write what it wrote before. -/
structure Grown {D : Type} [DecidableEq D] (B : Blocks) (H : Hasher D) (hash : Bytes → D)
    (smt : SmtStore D) (committed : Nat → Prop) : Prop where
  bound : ∀ b, committed b → 0 < b ∧ b < 2 ^ 64
  closed : ∀ b c, committed b → 0 < c → B.Anc c b → committed c
  absent : ∀ (key : NodeKey) v, v < 2 ^ 64 → smt.history key v ≠ none → committed v
  stores : ∀ b, b = 0 ∨ committed b →
    Stores H (smt.node (B.line b) b) DEPTH NodeKey.ROOT (B.map H hash b).entries
  replay : ∀ b root wb, committed b →
    Tree.update H (smt.node (B.line (B.parent b)) (B.parent b)) (B.commitments H hash b) b =
      .ok (root, wb) → smt.Contains wb ∧ ∀ w ∈ wb, w.At b

namespace Grown

variable {D : Type} [DecidableEq D] {B : Blocks} {H : Hasher D} {hash : Bytes → D}
  {smt : SmtStore D} {committed : Nat → Prop}

theorem grown_empty : Grown B H hash ({} : SmtStore D) fun _ => False where
  bound _ h := h.elim
  closed _ _ h := h.elim
  absent _ _ _ h := absurd rfl h
  stores b hb := by
    rw [hb.resolve_right fun h => h, Blocks.map_zero]
    exact stores_nil fun _ _ => rfl
  replay _ _ _ h := h.elim

theorem parent_committed (h : Grown B H hash smt committed) {b : Nat} (hb : committed b) :
    B.parent b = 0 ∨ committed (B.parent b) := by
  match Nat.eq_zero_or_pos (B.parent b) with
  | .inl hzero => exact .inl hzero
  | .inr hpos => exact .inr (h.closed b _ hb hpos (.parent (h.bound b hb).1))

theorem lt_of_committed (h : Grown B H hash smt committed) {b : Nat} (hb : b = 0 ∨ committed b) :
    b < 2 ^ 64 := hb.elim (fun hzero => by omega) fun hb => (h.bound b hb).2

/-- Writing nodes that are there already changes nothing. -/
theorem rewrite (h : Grown B H hash smt committed) {wb : Smt.WriteBatch D}
    (hcontains : smt.Contains wb) : Grown B H hash (smt.apply wb) committed := by
  have hnode : ∀ b, b = 0 ∨ committed b →
      (smt.apply wb).node (B.line b) b = smt.node (B.line b) b := fun b hb =>
    Blocks.node_line_congr (h.lt_of_committed hb) fun key u _ _ =>
      congrFun (hcontains.history_apply key) u
  refine { h with absent := fun key v hv hne => ?_, stores := fun b hb => ?_, replay := ?_ }
  · rw [hcontains.history_apply key] at hne
    exact h.absent key v hv hne
  · rw [hnode b hb]
    exact h.stores b hb
  · intro b root wb' hb hupdate
    rw [hnode _ (h.parent_committed hb)] at hupdate
    have ⟨hcontains', hat⟩ := h.replay b root wb' hb hupdate
    refine ⟨fun raw node hget => ?_, hat⟩
    rw [hcontains.get_apply raw, hcontains' raw node hget]

variable (h : Grown B H hash smt committed) {i : Nat} (hpos : 0 < i) (hi : i < 2 ^ 64)
  (hparent : B.parent i = 0 ∨ committed (B.parent i))
  (keeps : (B.map H hash (B.parent i)).KeepsPairs (B.map H hash i))
include h hpos hparent keeps

/-- What committing a block writes, on top of its parent's line. -/
theorem update :
    ∃ wb, Tree.update H (smt.node (B.line (B.parent i)) (B.parent i)) (B.commitments H hash i) i =
        .ok ((B.map H hash i).root, wb) ∧
      Stores H (Updater.after ⟨smt.node (B.line (B.parent i)) (B.parent i), i⟩ wb) DEPTH NodeKey.ROOT
        (B.map H hash i).entries ∧ ∀ w ∈ wb, w.At i := by
  rw [Blocks.map_pos hpos] at keeps ⊢
  refine Tree.update_stores (h.stores _ hparent) _ hpos (fun hone => ?_) keeps.keeps
  have hzero : B.parent i = 0 := by
    have := B.parent_lt hpos
    omega
  rw [hzero, Blocks.map_zero]
  rfl

include hi

/-- The first commit of a block. -/
theorem commit_new {wb : Smt.WriteBatch D} (hnew : ¬ committed i)
    (hupdate : Tree.update H (smt.node (B.line (B.parent i)) (B.parent i)) (B.commitments H hash i) i =
      .ok ((B.map H hash i).root, wb))
    (hstores : Stores H (Updater.after ⟨smt.node (B.line (B.parent i)) (B.parent i), i⟩ wb) DEPTH
      NodeKey.ROOT (B.map H hash i).entries) (hat : ∀ w ∈ wb, w.At i) :
    Grown B H hash (smt.apply wb) fun b => committed b ∨ b = i := by
  -- the lines of the blocks that have committed do not pass the new one
  have hother : ∀ b, b = 0 ∨ committed b →
      (smt.apply wb).node (B.line b) b = smt.node (B.line b) b := by
    intro b hor
    have hb := h.lt_of_committed hor
    refine Blocks.node_line_congr hb fun key u hu hanc => ?_
    have hle := hanc.le
    refine SmtStore.history_apply_of_ne hi hat key (by omega) fun heq => hnew ?_
    subst heq
    match hor with
    | .inl hzero => omega
    | .inr hb => exact h.closed b u hb hu hanc
  have hparent' := B.parent_lt hpos
  constructor
  case bound => exact fun b hb => hb.elim (h.bound b) fun heq => heq ▸ ⟨hpos, hi⟩
  case closed =>
    intro b c hb hc hanc
    match hb with
    | .inl hb => exact .inl (h.closed b c hb hc hanc)
    | .inr heq =>
      subst heq
      match Nat.lt_or_eq_of_le hanc.le with
      | .inr heq => exact .inr heq
      | .inl hlt =>
        have hanc := hanc.of_lt hlt
        have hle := hanc.le
        exact .inl (h.closed _ c (hparent.resolve_left (by omega)) hc hanc)
  case absent =>
    intro key v hv hne
    by_cases heq : v = i
    · exact .inr heq
    · rw [SmtStore.history_apply_of_ne hi hat key hv heq] at hne
      exact .inl (h.absent key v hv hne)
  case stores =>
    intro b hb
    by_cases heq : b = i
    · subst heq
      refine hstores.congr rfl fun key _ hkey => SmtStore.live_congr ?_
      have hfree : smt.history key b = none := by
        by_contra hne
        exact hnew (h.absent key b hi hne)
      rw [SmtStore.node_apply hi hat (Blocks.line_iff.mpr ⟨hpos, .refl⟩) hkey hfree,
        Blocks.node_line_parent hpos hi]
    · have hor : b = 0 ∨ committed b := hb.imp_right fun hb => hb.resolve_right heq
      rw [hother b hor]
      exact h.stores b hor
  case replay =>
    intro b root wb' hb hupdate'
    by_cases heq : b = i
    · subst heq
      rw [hother _ hparent, hupdate] at hupdate'
      cases hupdate'
      exact ⟨smt.contains_apply wb, hat⟩
    · have hb := hb.resolve_right heq
      rw [hother _ (h.parent_committed hb)] at hupdate'
      have ⟨hcontains, hat'⟩ := h.replay b root wb' hb hupdate'
      exact ⟨hcontains.apply_of_ne hi hat (h.bound b hb).2 hat' heq, hat'⟩

/-- A commit, the first one or again after a reorg. -/
theorem commit :
    ∃ wb, Tree.update H (smt.node (B.line (B.parent i)) (B.parent i)) (B.commitments H hash i) i =
        .ok ((B.map H hash i).root, wb) ∧
      Grown B H hash (smt.apply wb) fun b => committed b ∨ b = i := by
  have ⟨wb, hupdate, hstores, hat⟩ := h.update hpos hparent keeps
  refine ⟨wb, hupdate, ?_⟩
  by_cases hcommitted : committed i
  · have ⟨hcontains, _⟩ := h.replay i _ wb hcommitted hupdate
    have hsame : (fun b => committed b ∨ b = i) = committed :=
      funext fun b => propext ⟨fun hb => hb.elim (fun hb => hb) fun heq => heq ▸ hcommitted, .inl⟩
    rw [hsame]
    exact h.rewrite hcontains
  · exact h.commit_new hpos hi hparent keeps hcommitted hupdate hstores hat

end Grown

end Vprogs.Scheduler
