import Vprogs.Scheduler.Pointers
import Vprogs.Scheduler.ReorgTree
import Vprogs.Smt.HonestRoots

/-!
The tree and the latest pointers describe one state. Rollbacks move the pointers
and leave the tree alone, returning batches do either; over runs without pruning
the two agree as long as no block empties a shared prefix of the tree.
-/
namespace Vprogs.Scheduler

open Abi Smt
open Runs (run Along)

open Lane.BatchProcessor (keyOfId)

/-- Finalization and what follows from it. -/
def Event.prunes : Event → Bool
  | .finalize _ | .claim _ | .prune => true
  | _ => false

namespace System

variable {D : Type} [DecidableEq D] {B : Blocks} {H : Hasher D} {hash : Bytes → D}
  {cfg : Config} {s s' : System D}

/-- The tree holds every block that has committed, on the chain or off it. -/
structure Agrees (B : Blocks) (H : Hasher D) (hash : Bytes → D) (s : System D) : Prop where
  invariant : s.Invariant B
  grown : Grown B H hash s.smt fun b => s.store.hasMetadata b = true
  committed : ∀ c, 0 < c → B.Anc c s.lastCommitted → s.store.hasMetadata c = true
  restored : ∀ i x, s.batches i = some x → x.restored = true → s.store.hasMetadata i = true
  undropped : s.chain.dropped = 0
  small : s.chain.tip < 2 ^ 64

theorem agrees_init : Agrees B H hash ({} : System D) where
  invariant := invariant_init B
  grown := by
    have hnone : (fun b => ({} : StateStore).hasMetadata b = true) = fun _ => False :=
      funext fun b => eq_false (by intro h; cases h)
    exact hnone ▸ Grown.grown_empty
  committed c hpos hc := absurd hc.le (Nat.not_le_of_gt hpos)
  restored _ _ h := by cases h
  undropped := rfl
  small := Nat.two_pow_pos 64

namespace Agrees

variable (h : s.Agrees B H hash)
include h

theorem isCanonical_iff {c : Nat} : s.isCanonical c = true ↔ 0 < c ∧ B.Anc c s.chain.tip := by
  rw [h.invariant.isCanonical_iff, h.undropped, h.invariant.ids]
  constructor
  · exact fun ⟨_, _, hor⟩ => hor.resolve_left (Nat.not_lt_zero _)
  · exact fun ⟨hpos, hanc⟩ => ⟨hpos, hanc.le, .inr ⟨hpos, hanc⟩⟩

/-- Canonical reads are reads on the line of a block, if the chain has nothing
beyond it that has committed. -/
theorem node_eq {c w : Nat} (hc : B.Anc c s.chain.tip) (hw : w < 2 ^ 64) (hle : c ≤ w)
    (hnone : ∀ u, c < u → u ≤ w → B.Anc u s.chain.tip → s.store.hasMetadata u = false) :
    s.smt.node s.isCanonical w = s.smt.node (B.line c) c := by
  refine funext fun key => SmtStore.node_congr hw hle (fun u hu => ?_) fun u hlt hu => ?_
  · have hsame : s.isCanonical u = B.line c u := by
      rw [Bool.eq_iff_iff, h.isCanonical_iff, Blocks.line_iff]
      exact and_congr_right fun _ => ⟨fun hanc => hanc.of_le hc hu, fun hanc => hanc.trans hc⟩
    rw [seen, seen, hsame]
  · unfold seen
    split
    · next hcan =>
      by_contra hne
      have hmetadata := h.grown.absent key u (by omega) hne
      rw [hnone u hlt hu (h.isCanonical_iff.mp hcan).2] at hmetadata
      cases hmetadata
    · rfl

/-- Steps that leave the tree and the committed blocks alone. -/
theorem same (hinv : s'.Invariant B) (hsmt : s'.smt = s.smt)
    (hmetadata : ∀ b, s'.store.hasMetadata b = s.store.hasMetadata b)
    (hlast : B.Anc s'.lastCommitted s.lastCommitted)
    (hrestored : ∀ i x, s'.batches i = some x → x.restored = true → s.store.hasMetadata i = true)
    (hchain : s'.chain.dropped = s.chain.dropped) (hsmall : s'.chain.tip < 2 ^ 64) :
    s'.Agrees B H hash where
  invariant := hinv
  grown := by
    have heq : (fun b => s'.store.hasMetadata b = true) = fun b => s.store.hasMetadata b = true :=
      funext fun b => by rw [hmetadata]
    rw [heq, hsmt]
    exact h.grown
  committed c hpos hc := hmetadata c ▸ h.committed c hpos (hc.trans hlast)
  restored i x hx hres := hmetadata i ▸ hrestored i x hx hres
  undropped := hchain.trans h.undropped
  small := hsmall

theorem restored_update {i : Nat} {x x' : Batch} (hx : s.batches i = some x)
    (hsame : x'.restored = x.restored) :
    ∀ j y, Function.update s.batches i (some x') j = some y → y.restored = true →
      s.store.hasMetadata j = true := by
  intro j y hy hres
  rw [Function.update_apply] at hy
  split at hy
  · next heq =>
    cases hy
    exact heq ▸ h.restored i x hx (hsame ▸ hres)
  · exact h.restored j y hy hres

theorem setBatch {i : Nat} {x x' : Batch} (hx : s.batches i = some x) (hsame : x'.restored = x.restored)
    (hinv : (s.setBatch i x').Invariant B) : (s.setBatch i x').Agrees B H hash :=
  h.same hinv rfl (fun _ => rfl) .refl (h.restored_update hx hsame) rfl h.small

end Agrees

/-! ### Commit -/

omit [DecidableEq D] in
/-- A batch commits to the tree what its block commits. -/
theorem map_commitment {i : Nat} {diffs : List StateDiff} (hc : Committable B i diffs) :
    (diffs.filter StateDiff.dataUpdated).map (StateDiff.commitment H hash) =
      B.commitments H hash i := by
  rw [Blocks.commitments, ← hc.complete, List.filterMap_map, ← List.filterMap_eq_map,
    List.filterMap_filter]
  refine List.filterMap_congr fun d hd => ?_
  obtain ⟨hsome, _⟩ := hc.each d hd
  have hupdated := hc.dataUpdated_iff hd
  cases hup : B.updateAt i d.resourceId with
  | none =>
    have hfalse : d.dataUpdated = false := by
      by_contra hne
      exact hupdated.mp (by simpa using hne) hup
    simp [hfalse, hup]
  | some data =>
    have htrue : d.dataUpdated = true := hupdated.mpr (by rw [hup]; exact Option.some_ne_none _)
    simp [htrue, hup, StateDiff.commitment, (hsome data hup).1]

theorem commit_agrees {i : Nat} (h : s.Agrees B H hash)
    (keeps : (B.map H hash (B.parent i)).KeepsPairs (B.map H hash i))
    (hstep : s.commit B H hash i = some s') : s'.Agrees B H hash := by
  have hinv := commit_inv h.invariant hstep
  obtain ⟨x, hx, hstep⟩ := Option.bind_eq_some_iff.mp hstep
  obtain ⟨⟨hopen, hall, hstored⟩, hstep⟩ := guard_bind_eq_some.mp hstep
  obtain ⟨diffs, hdiffs, hstep⟩ := Option.bind_eq_some_iff.mp hstep
  obtain ⟨smt, hsmt, heq⟩ := Option.bind_eq_some_iff.mp hstep
  cases heq
  have hok := h.invariant.batch i x hx
  have hparent := h.invariant.last_eq_parent hx hopen hall
  have hlt := B.parent_lt hok.pos
  have hile := hok.canonical.le
  have hsmall := h.small
  have hparent' : B.parent i = 0 ∨ s.store.hasMetadata (B.parent i) = true := by
    rcases Nat.eq_zero_or_pos (B.parent i) with hzero | hpos
    · exact .inl hzero
    · exact .inr (h.committed _ hpos (hparent ▸ .refl))
  have hmetadata : ∀ b, (s.store.commit (commitWrites diffs i x.restored)).hasMetadata b = true ↔
      s.store.hasMetadata b = true ∨ b = i := by
    intro b
    rw [StateStore.hasMetadata_commit, Bool.or_eq_true, Bool.and_eq_true, decide_eq_true_iff]
    cases hres : x.restored with
    | false => simp
    | true =>
      have := h.restored i x hx hres
      simp only [Bool.not_true, Bool.false_eq_true, false_and, or_false]
      exact ⟨.inl, fun hb => hb.elim (fun hb => hb) fun heq => heq ▸ this⟩
  have hgrown : Grown B H hash smt fun b => s.store.hasMetadata b = true ∨ b = i := by
    obtain ⟨wb, hupdate, hgrown⟩ := h.grown.commit hok.pos (by omega) hparent' keeps
    unfold updateSmt at hsmt
    split at hsmt
    · next hres =>
      cases hsmt
      have hsame : (fun b => s.store.hasMetadata b = true ∨ b = i) =
          fun b => s.store.hasMetadata b = true :=
        funext fun b => propext ⟨fun hb => hb.elim (fun hb => hb)
          fun heq => heq ▸ h.restored i x hx hres, .inl⟩
      exact hsame ▸ h.grown
    · have hread : s.smt.node s.isCanonical (i - 1) =
          s.smt.node (B.line (B.parent i)) (B.parent i) := by
        refine h.node_eq ((Blocks.Anc.parent hok.pos).trans hok.canonical) (by omega) (by omega)
          fun u hu hle hanc => ?_
        have hbelow := (hanc.of_le hok.canonical (by omega)).of_lt (by omega)
        exact absurd hbelow.le (by omega)
      have hrun : s.smt.update H s.isCanonical
          ((diffs.filter StateDiff.dataUpdated).map (StateDiff.commitment H hash)) i =
          .ok ((B.map H hash i).root, s.smt.apply wb) := by
        rw [map_commitment (h.invariant.committable hx hdiffs), SmtStore.update, hread, hupdate]
        rfl
      rw [hrun] at hsmt
      cases hsmt
      exact hgrown
  constructor
  case invariant => exact hinv
  case grown =>
    have hsame : (fun b => (s.store.commit (commitWrites diffs i x.restored)).hasMetadata b = true) =
        fun b => s.store.hasMetadata b = true ∨ b = i := funext fun b => propext (hmetadata b)
    exact hsame ▸ hgrown
  case committed =>
    intro c hpos hc
    refine (hmetadata c).mpr ?_
    rcases Nat.lt_or_eq_of_le hc.le with hci | hci
    · exact .inl (h.committed c hpos (hparent ▸ hc.of_lt hci))
    · exact .inr hci
  case restored =>
    have hsame : Batch.restored { x with committed := true } = x.restored := rfl
    intro j y hy hres
    exact (hmetadata j).mpr (.inl (h.restored_update hx hsame j y hy hres))
  case undropped => exact h.undropped
  case small => exact h.small

/-! ### Runs -/

theorem step_agrees {e : Event} (h : s.Agrees B H hash) (hsettled : Settled cfg s e)
    (hunpruned : e.prunes = false)
    (keeps : ∀ i, e = .commit i → (B.map H hash (B.parent i)).KeepsPairs (B.map H hash i))
    (hid : ∀ i, e = .append i → i < 2 ^ 64)
    (hstep : s.step B H hash cfg e = some s') : s'.Agrees B H hash := by
  have hinv := step_inv h.invariant hsettled hstep
  cases e with
  | append i =>
    obtain ⟨_, _, _, _, _, heq⟩ := append_eq hstep
    subst heq
    refine h.same hinv rfl (fun _ => rfl) .refl (fun j y hy hres => ?_) rfl (hid i rfl)
    dsimp only at hy
    rw [Function.update_apply] at hy
    split at hy
    · next heq =>
      cases hy
      exact heq ▸ (Bool.and_eq_true_iff.mp hres).2
    · exact h.restored j y hy hres
  | read i r =>
    obtain ⟨x, hx, hstep⟩ := Option.bind_eq_some_iff.mp hstep
    obtain ⟨_, hstep⟩ := guard_bind_eq_some.mp hstep
    obtain ⟨st, hst, heq⟩ := Option.bind_eq_some_iff.mp hstep
    cases heq
    exact h.setBatch hx rfl hinv
  | execute i r =>
    obtain ⟨x, hx, hstep⟩ := Option.bind_eq_some_iff.mp hstep
    obtain ⟨_, hstep⟩ := guard_bind_eq_some.mp hstep
    obtain ⟨st, hst, heq⟩ := Option.bind_eq_some_iff.mp hstep
    cases heq
    exact h.setBatch hx rfl hinv
  | restore i r =>
    obtain ⟨x, hx, hstep⟩ := Option.bind_eq_some_iff.mp hstep
    obtain ⟨_, heq⟩ := guard_bind_eq_some.mp hstep
    cases heq
    exact h.setBatch hx rfl hinv
  | write i r =>
    obtain ⟨x, hx, hstep⟩ := Option.bind_eq_some_iff.mp hstep
    obtain ⟨_, hstep⟩ := guard_bind_eq_some.mp hstep
    obtain ⟨readState, _, hstep⟩ := Option.bind_eq_some_iff.mp hstep
    obtain ⟨writtenState, _, heq⟩ := Option.bind_eq_some_iff.mp hstep
    cases heq
    refine h.same hinv rfl (fun b => ?_) .refl (h.restored_update hx rfl) rfl h.small
    rw [StateStore.hasMetadata, StateStore.metadata_write]
    rfl
  | commit i => exact commit_agrees h (keeps i rfl) hstep
  | evict r =>
    obtain ⟨p, hp, hstep⟩ := Option.bind_eq_some_iff.mp hstep
    obtain ⟨_, heq⟩ := guard_bind_eq_some.mp hstep
    cases heq
    exact h.same hinv rfl (fun _ => rfl) .refl h.restored rfl h.small
  | rollback target =>
    obtain ⟨⟨hlt, _, htarget⟩, _, _, heq⟩ := rollback_eq hstep
    subst heq
    have hanc : B.Anc (min s.lastCommitted target) s.lastCommitted := by
      refine Blocks.Anc.of_le ?_ h.invariant.last (Nat.min_le_left _ _)
      rcases Nat.le_total s.lastCommitted target with hle | hle
      · exact (Nat.min_eq_left hle).symm ▸ h.invariant.last
      · rw [Nat.min_eq_right hle]
        rcases htarget with hzero | hmem
        · exact hzero ▸ .zero _
        · exact ((h.invariant.ids target).mp hmem).2
    have hsmall := h.small
    refine h.same hinv rfl (fun b => ?_) hanc (fun j y hy hres => ?_) rfl (Nat.lt_trans hlt hsmall)
    · have hmetadata := (StateStore.walked_others (s := s.store)
        (rollbackRange s.isCanonical target s.chain.tip)).2.2
      change ((s.store.commit (rollbackWrites s.store s.isCanonical target s.chain.tip)).metadata.get b).isSome = _
      rw [rollbackWrites, hmetadata]
      rfl
    · dsimp only at hy
      split at hy
      · exact h.restored j y hy hres
      · cases hy
  | finalize _ | claim _ | prune => cases hunpruned

theorem run_agrees {events : List Event} (h : s.Agrees B H hash)
    (hsettled : Along (step B H hash cfg) (Settled cfg) s events)
    (hunpruned : ∀ e ∈ events, e.prunes = false)
    (keeps : ∀ i, .commit i ∈ events → (B.map H hash (B.parent i)).KeepsPairs (B.map H hash i))
    (hids : ∀ i, .append i ∈ events → i < 2 ^ 64)
    (hrun : run (step B H hash cfg) s events = some s') : s'.Agrees B H hash := by
  induction events generalizing s with
  | nil =>
    cases hrun
    exact h
  | cons e es ih =>
    have ⟨t, hstep, hrun⟩ := Runs.run_cons.mp hrun
    have hfirst := step_agrees h hsettled.1 (hunpruned e List.mem_cons_self)
      (fun i he => keeps i (he ▸ List.mem_cons_self))
      (fun i he => hids i (he ▸ List.mem_cons_self)) hstep
    exact ih hfirst (hsettled.2 t hstep) (fun e he => hunpruned e (List.mem_cons_of_mem _ he))
      (fun i hi => keeps i (List.mem_cons_of_mem _ hi)) (fun i hi => hids i (List.mem_cons_of_mem _ hi))
      hrun

/-- The value hash that a proof for the resource at the canonical tip proves. -/
def provedValue (H : Hasher D) (s : System D) (r : ResourceId) : Option D :=
  match Tree.prove H (s.smt.node s.isCanonical s.chain.tip) [keyOfId r] with
  | .error _ => none
  | .ok p =>
    if p.root H = .ok (s.smt.root H s.isCanonical s.chain.tip) then
      match p.member 0 with
      | .error _ => none
      | .ok m => some (m.valueHash H)
    else none

namespace Sample

/-- A block that writes fixed data. -/
def writing (writes : List (ResourceId × Bytes)) (distinct : (writes.map Prod.fst).Nodup) : Body where
  resources := writes.map Prod.fst
  distinct := distinct
  needs _ := []
  run _ r := writes.lookup r
  run_congr _ := rfl

def idle : Body := writing [] (by decide)

/-- Resources by their first byte. -/
def byte (b : UInt8) : ResourceId := ⟨b :: List.replicate 31 0, rfl⟩

/-- Two resources are created on either side of the tree, the second is deleted,
and a third is created beside it. -/
def ghost : Blocks where
  parent b := b - 1
  body
    | 1 => writing [(byte 0, [1]), (byte 128, [2])] (by decide)
    | 2 => writing [(byte 128, [])] (by decide)
    | 3 => writing [(byte 192, [3])] (by decide)
    | _ => idle
  parent_lt := @line_parent_lt

/-- A batch from its schedule to its commit. -/
def committed (B : Blocks) (b : Nat) : List Event :=
  .append b :: ((B.body b).resources.flatMap fun r => [.read b r, .execute b r, .write b r]) ++
    [.commit b]

def dataHash (data : Bytes) : Nat := Encodable.encode (data.map UInt8.toNat) + 1

theorem dataHash_injective : Function.Injective dataHash := by
  intro a b h
  have heq := Encodable.encode_injective (Nat.add_right_cancel h)
  exact List.map_injective_iff.mpr (fun _ _ => UInt8.toNat_inj.mp) heq

/-- Blocks that write one resource keep at most one entry. -/
theorem keepsPairs_fork (a b : Nat) :
    (fork.map codeHasher dataHash a).KeepsPairs (fork.map codeHasher dataHash b) := by
  have hkey : ∀ b, ∀ e ∈ (fork.map codeHasher dataHash b).entries, e.1 = keyOfId resource := by
    intro b
    induction b using Nat.strongRecOn with
    | ind b ih =>
      intro e he
      match Nat.eq_zero_or_pos b with
      | .inl hzero =>
        rw [hzero, Blocks.map_zero] at he
        cases he
      | .inr hb =>
        by_contra hne
        have ⟨hget, hlive⟩ := (StateMap.mem_iff_get _).mp he
        rw [Blocks.map_pos hb, StateMap.get_setAll] at hget
        have hnone : (fork.commitments codeHasher dataHash b).filter (fun u => u.1 == e.1) = [] := by
          refine List.filter_eq_nil_iff.mpr fun u hu hue => hne ?_
          have ⟨r, hr, hsome⟩ := List.mem_filterMap.mp hu
          have ⟨data, _, heq⟩ := Option.map_eq_some_iff.mp hsome
          rw [← eq_of_beq hue, ← heq, List.mem_singleton.mp hr]
        rw [hnone] at hget
        exact hne (ih _ (fork.parent_lt hb) e ((StateMap.mem_iff_get _).mpr ⟨hget, hlive⟩))
  have hone : (fork.map codeHasher dataHash a).entries.length ≤ 1 := by
    have hsorted := (fork.map codeHasher dataHash a).sorted
    match hentries : (fork.map codeHasher dataHash a).entries, hkey a with
    | [], _ => exact Nat.zero_le 1
    | [_], _ => exact Nat.le_refl 1
    | e :: e' :: es, hkey =>
      rw [hentries] at hsorted
      have hlt := List.rel_of_pairwise_cons hsorted List.mem_cons_self
      rw [hkey e List.mem_cons_self, hkey e' (List.mem_cons_of_mem e List.mem_cons_self)] at hlt
      exact absurd hlt (BitVec.lt_irrefl _)
  intro k bits htwo
  have hle : ((fork.map codeHasher dataHash a).sharing k bits).length ≤
      (fork.map codeHasher dataHash a).entries.length := List.length_filter_le _ _
  omega

/-- Block 3 replaces block 2, and block 2 returns and is restored. -/
def returning : List Event :=
  committed fork 1 ++ committed fork 2 ++ [.rollback 1] ++ committed fork 3 ++
    [.rollback 1, .append 2, .restore 2 resource, .commit 2]

end Sample

end System

end Vprogs.Scheduler
