import Vprogs.Scheduler.Stored
import Mathlib.Data.Nat.Find

/-!
Going back: a rollback leaves the latest pointers at the state after its target, and
a pruning pass deletes no version that a later read or rollback needs.
-/
namespace Vprogs.Scheduler

open Abi

variable {B : Blocks} {s : StateStore} {isCanonical : Nat → Bool} {tip last cursor kept : Nat}

/-! ### Rollback -/

theorem mem_rollbackRange {target c : Nat} :
    c ∈ rollbackRange isCanonical target tip ↔ target < c ∧ c ≤ tip ∧ isCanonical c = true := by
  rw [rollbackRange, List.mem_filter, List.mem_reverse, List.mem_range'_1, ← and_assoc]
  refine and_congr_left fun _ => ?_
  omega

theorem rollbackRange_descending (isCanonical : Nat → Bool) (target tip : Nat) :
    (rollbackRange isCanonical target tip).Pairwise (· > ·) := by
  refine List.Pairwise.filter _ (List.pairwise_reverse.mpr ?_)
  exact List.pairwise_lt_range'

/-- The walk ends at the lowest pointer, so a resource gets the state before the
first walked block that wrote it. -/
theorem latestPtr_rollback {target : Nat} (h : Stored B s tip last cursor kept) (hcursor : cursor ≤ target)
    {id : ResourceId} (hany : ∃ c, c ∈ rollbackRange isCanonical target tip ∧ s.rollbackPtr c id ≠ none)
    (closed : ∀ a, isCanonical a = true → target < a → a ≤ tip →
      B.Anc target a ∧ ∀ c, B.Anc c a → target < c → isCanonical c = true) :
    (s.commit (rollbackWrites s isCanonical target tip)).latestPtr id =
      StateStore.repointed (B.snapshot target id).version ∧
      ∀ c, B.Anc c target → cursor < c → B.updateAt c id ≠ none → s.rollbackPtr c id ≠ none := by
  obtain ⟨hmem, hptr⟩ := Nat.find_spec hany
  have hleast : ∀ c < Nat.find hany, c ∈ rollbackRange isCanonical target tip →
      s.rollbackPtr c id = none := fun c hlt hc => by
    by_contra hne
    exact Nat.find_min hany hlt ⟨hc, hne⟩
  generalize Nat.find hany = a at hmem hptr hleast
  have ⟨old, hold⟩ := Option.ne_none_iff_exists'.mp hptr
  have ⟨hapos, _, heq⟩ := h.pointer a id old hold
  have ⟨hlt, hle, hcan⟩ := mem_rollbackRange.mp hmem
  have ⟨hanc, hbelow⟩ := closed a hcan hlt hle
  have hsnapshot : B.snapshot (B.parent a) id = B.snapshot target id := by
    refine Blocks.snapshot_eq_of_unwritten (hanc.of_lt hlt) fun c hc hlt' => ?_
    by_contra hup
    have hca : B.Anc c a := hc.trans (.parent hapos)
    have hlta : c < a := Nat.lt_of_le_of_lt hc.le (B.parent_lt hapos)
    refine h.closed a c id hptr hca (by omega) hup (hleast c hlta ?_)
    exact mem_rollbackRange.mpr ⟨hlt', by omega, hbelow c hca hlt'⟩
  have ⟨before, after, hsplit⟩ := List.append_of_mem hmem
  refine ⟨?_, fun c hc => h.closed a c id hptr (hc.trans hanc)⟩
  rw [rollbackWrites, hsplit, StateStore.latestPtr_walked hold, heq, hsnapshot]
  intro c hc
  have hdesc := rollbackRange_descending isCanonical target tip
  rw [hsplit] at hdesc
  have hca : c < a := List.rel_of_pairwise_cons (List.pairwise_append.mp hdesc).2.1 hc
  refine hleast c hca ?_
  rw [hsplit]
  exact List.mem_append_right before (List.mem_cons_of_mem a hc)

/-- After the walk a pointer is ahead only where a block up to the target is in flight. -/
theorem named_rollback {target : Nat} (h : Stored B s tip last cursor kept) (hcursor : cursor ≤ target)
    (hlast : B.Anc last tip) (htarget : B.Anc target tip) (hflight : cursor ≤ last ∨ target ≤ last)
    (covers : ∀ c, B.Anc c tip → target < c → isCanonical c = true)
    (closed : ∀ a, isCanonical a = true → target < a → a ≤ tip →
      B.Anc target a ∧ ∀ c, B.Anc c a → target < c → isCanonical c = true) (id : ResourceId) :
    (s.commit (rollbackWrites s isCanonical target tip)).latestPtr id =
        StateStore.repointed (B.snapshot (min last target) id).version ∨
      ∃ j, B.Anc j target ∧ min last target < j ∧ j ≤ target ∧ s.rollbackPtr j id ≠ none := by
  by_cases hany : ∃ c, c ∈ rollbackRange isCanonical target tip ∧ s.rollbackPtr c id ≠ none
  · have ⟨hlatest, hptrs⟩ := latestPtr_rollback h hcursor hany closed
    rw [hlatest]
    match Nat.le_total target last with
    | .inl hle => exact .inl (by rw [Nat.min_eq_right hle])
    | .inr hle =>
      rw [Nat.min_eq_left hle]
      by_cases hup : ∃ j, B.Anc j target ∧ last < j ∧ B.updateAt j id ≠ none
      · have ⟨j, hj, hlt, hwrites⟩ := hup
        have hle := hj.le
        exact .inr ⟨j, hj, hlt, hle, hptrs j hj (by omega) hwrites⟩
      · refine .inl (congrArg (fun st : StateVersion => StateStore.repointed st.version) ?_)
        refine Blocks.snapshot_eq_of_unwritten (hlast.of_le htarget hle) fun c hc hlt => ?_
        by_contra hne
        exact hup ⟨c, hc, hlt, hne⟩
  · have hnone : ∀ c ∈ rollbackRange isCanonical target tip, s.rollbackPtr c id = none := by
      intro c hc
      by_contra hne
      exact hany ⟨c, hc, hne⟩
    rw [rollbackWrites, StateStore.latestPtr_walked_none hnone]
    match h.named id with
    | .inl hlatest =>
      refine .inl (hlatest.trans (congrArg (fun st : StateVersion => StateStore.repointed st.version) ?_))
      match Nat.le_total last target with
      | .inl hle => rw [Nat.min_eq_left hle]
      | .inr hle =>
        rw [Nat.min_eq_right hle]
        refine Blocks.snapshot_eq_of_unwritten (htarget.of_le hlast hle) fun c hc hlt => ?_
        by_contra hup
        have := hc.le
        have := hlast.le
        exact h.kept c id (by omega) hc (by omega) hup
          (hnone c (mem_rollbackRange.mpr ⟨hlt, by omega, covers c (hc.trans hlast) hlt⟩))
    | .inr ⟨j, hj, hlt, hle, hptr⟩ =>
      have hjt : j ≤ target := by
        by_contra hgt
        exact hptr (hnone j (mem_rollbackRange.mpr ⟨by omega, hj.le, covers j hj (by omega)⟩))
      exact .inr ⟨j, hj.of_le htarget hjt, by omega, hjt, hptr⟩

theorem Stored.rollback {target : Nat} (h : Stored B s tip last cursor kept) (hcursor : cursor ≤ target)
    (hlast : B.Anc last tip) (htarget : B.Anc target tip) (hflight : cursor ≤ last ∨ target ≤ last)
    (covers : ∀ c, B.Anc c tip → target < c → isCanonical c = true)
    (closed : ∀ a, isCanonical a = true → target < a → a ≤ tip →
      B.Anc target a ∧ ∀ c, B.Anc c a → target < c → isCanonical c = true) :
    Stored B (s.commit (rollbackWrites s isCanonical target tip)) target (min last target) cursor target := by
  obtain ⟨hversions, hrollback, hmetadata⟩ :=
    StateStore.walked_others (s := s) (rollbackRange isCanonical target tip)
  change (s.commit (rollbackWrites s isCanonical target tip)).versions = _ at hversions
  change (s.commit (rollbackWrites s isCanonical target tip)).rollback = _ at hrollback
  change (s.commit (rollbackWrites s isCanonical target tip)).metadata = _ at hmetadata
  have hmin : B.Anc (min last target) last := by
    rcases Nat.le_total last target with hle | hle
    · rw [Nat.min_eq_left hle]; exact .refl
    · rw [Nat.min_eq_right hle]; exact htarget.of_le hlast hle
  constructor
  case named =>
    intro id
    unfold StateStore.rollbackPtr
    rw [hrollback]
    exact named_rollback h hcursor hlast htarget hflight covers closed id
  case live =>
    intro b id hb hor hne
    rw [StateStore.version, hversions]
    exact h.live b id (hb.trans hmin) (by omega) hne
  case pointer =>
    intro b id old
    rw [StateStore.rollbackPtr, hrollback]
    exact h.pointer b id old
  case kept =>
    intro b id hpos hb
    rw [StateStore.rollbackPtr, hrollback]
    exact h.kept b id hpos (hb.trans hmin)
  case closed =>
    intro n m id
    rw [StateStore.rollbackPtr, StateStore.rollbackPtr, hrollback]
    exact h.closed n m id
  case whole =>
    intro b id hb hlt data hup
    rw [StateStore.rollbackPtr, hrollback] at hb
    rw [StateStore.rollbackPtr, StateStore.version, hrollback, hversions]
    exact h.whole b id hb hlt data hup
  case restorable =>
    intro b hb hor id data hup
    rw [StateStore.hasMetadata, hmetadata] at hb
    rw [StateStore.rollbackPtr, StateStore.version, hrollback, hversions]
    refine h.restorable b hb ?_ id data hup
    rcases Nat.lt_or_ge cursor b with hlt | hle
    · exact .inl hlt
    · refine .inr fun hanc => (hor.resolve_left (Nat.not_lt.mpr hle)) ?_
      exact hanc.of_le htarget (Nat.le_trans hle hcursor)
  case version =>
    intro v id data
    rw [StateStore.version, hversions]
    exact h.version v id data

/-! ### Pruning -/

section prune

variable {lower upper : Nat}

/-- A version the pass deletes is an orphan's, or one that a block of the range
replaced on the chain. -/
theorem Stored.reclaims (h : Stored B s tip last cursor kept)
    (agree : ∀ m, lower ≤ m → m ≤ upper → 0 < m → (isCanonical m = true ↔ B.Anc m tip))
    {m v : Nat} {id : ResourceId} (hlower : lower ≤ m) (hupper : m ≤ upper)
    (hreclaims : s.Reclaims isCanonical m v id) :
    ¬ B.Anc m tip ∧ v = m ∨
      B.Anc m tip ∧ 0 < m ∧ B.updateAt m id ≠ none ∧ B.Anc v m ∧ v < m := by
  have ⟨old, hptr, hcase⟩ := hreclaims
  have ⟨hpos, hup, hold⟩ := h.pointer m id old hptr
  have hagree := agree m hlower hupper hpos
  match hcase with
  | .inl ⟨hcan, hv⟩ =>
    refine .inl ⟨fun hanc => ?_, hv⟩
    rw [hagree.mpr hanc] at hcan
    cases hcan
  | .inr ⟨hcan, hv, hne⟩ =>
    rw [hv, hold]
    rw [hold] at hne
    have hwritten := Blocks.written_by (mt Blocks.version_eq_zero_iff.mpr hne)
    refine .inr ⟨hagree.mp hcan, hpos, hup, hwritten.1.trans (.parent hpos), ?_⟩
    exact Nat.lt_of_le_of_lt (Blocks.version_le _ id) (B.parent_lt hpos)

variable (h : Stored B s tip last cursor kept) (hcursor : upper ≤ cursor) (htip : B.Anc last tip)
  (agree : ∀ m, lower ≤ m → m ≤ upper → 0 < m → (isCanonical m = true ↔ B.Anc m tip))
  (settled : ∀ m, lower ≤ m → m ≤ upper → B.Anc m tip → B.Anc m last)
include h agree

/-- What a block of the chain reads stays when the range ends before it. -/
theorem Stored.live_prune {b : Nat} {id : ResourceId} (hb : B.Anc b tip)
    (hrange : ∀ m, lower ≤ m → m ≤ upper → B.Anc m tip → m ≤ b) (hne : (B.snapshot b id).data ≠ []) :
    (s.commit (pruneWrites s isCanonical lower upper)).version (B.snapshot b id).version id =
      s.version (B.snapshot b id).version id := by
  refine StateStore.version_prune_of_kept fun m hlower hupper hreclaims => ?_
  match h.reclaims agree hlower hupper hreclaims with
  | .inl ⟨hm, hv⟩ => exact hm (hv ▸ (Blocks.written_by hne).1.trans hb)
  | .inr ⟨hm, hpos, hup, _, hlt⟩ =>
    -- the block that replaced the version comes before the one it is read for
    have hmb := hm.of_le hb (hrange m hlower hupper hm)
    exact Nat.not_lt.mpr (Blocks.version_ge_of_updateAt hmb hpos hup hne) hlt

include hcursor

/-- Blocks outside the range stay as they are, unless the chain has passed them. -/
theorem Stored.intact_prune {b : Nat} {id : ResourceId} (hout : ¬ (lower ≤ b ∧ b ≤ upper))
    (hb : cursor < b ∨ ¬ B.Anc b tip ∨ ∀ m, lower ≤ m → m ≤ upper → B.Anc m tip → m < b)
    (hintact : Intact B s b id) : Intact B (s.commit (pruneWrites s isCanonical lower upper)) b id := by
  intro data hup
  have ⟨hptr, hver⟩ := hintact data hup
  rw [StateStore.rollbackPtr_prune, if_neg hout]
  refine ⟨hptr, fun hne => ?_⟩
  rw [StateStore.version_prune_of_kept, hver hne]
  intro m hlower hupper hreclaims
  match h.reclaims agree hlower hupper hreclaims with
  | .inl ⟨_, hbm⟩ => exact hout ⟨hbm ▸ hlower, hbm ▸ hupper⟩
  | .inr ⟨hm, _, _, hanc, hlt⟩ =>
    match hb with
    | .inl hb => omega
    | .inr (.inl hb) => exact hb (hanc.trans hm)
    | .inr (.inr hb) => exact Nat.lt_asymm hlt (hb m hlower hupper hm)

include htip settled in
theorem Stored.prune :
    Stored B (s.commit (pruneWrites s isCanonical lower upper)) tip last cursor kept where
  named id := by
    rw [StateStore.latestPtr, StateStore.latest_prune]
    refine (h.named id).imp_right fun ⟨j, hj, hlast, hle, hptr⟩ => ⟨j, hj, hlast, hle, ?_⟩
    rw [StateStore.rollbackPtr_prune, if_neg fun hrange => ?_]
    · exact hptr
    · exact Nat.not_le.mpr hlast (settled j hrange.1 hrange.2 hj).le
  live b id hb hor hne := by
    rw [h.live_prune agree (hb.trans htip) (fun m hlower hupper hm => ?_) hne]
    · exact h.live b id hb hor hne
    · exact hor.elim (fun hle => by omega) fun heq => heq ▸ (settled m hlower hupper hm).le
  pointer b id old hptr := by
    rw [StateStore.rollbackPtr_prune] at hptr
    split at hptr
    · cases hptr
    · exact h.pointer b id old hptr
  kept b id hpos hb hlt hup := by
    rw [StateStore.rollbackPtr_prune, if_neg (by omega)]
    exact h.kept b id hpos hb hlt hup
  closed n m id hn hm hlt hup := by
    rw [StateStore.rollbackPtr_prune] at hn
    rw [StateStore.rollbackPtr_prune, if_neg (by omega)]
    split at hn
    · exact absurd rfl hn
    · exact h.closed n m id hn hm hlt hup
  whole b id hb hlt := by
    have hout : ¬ (lower ≤ b ∧ b ≤ upper) := by omega
    rw [StateStore.rollbackPtr_prune, if_neg hout] at hb
    exact h.intact_prune hcursor agree hout (.inl hlt) (h.whole b id hb hlt)
  restorable b hb hor id := by
    rw [StateStore.hasMetadata_prune, Bool.and_eq_true] at hb
    have hout : ¬ (lower ≤ b ∧ b ≤ upper) := by
      simpa only [Bool.not_eq_true', decide_eq_false_iff_not] using hb.2
    exact h.intact_prune hcursor agree hout (hor.imp_right .inl) (h.restorable b hb.1 hor id)
  version v id data hv := h.version v id data (StateStore.version_of_prune hv)

end prune

end Vprogs.Scheduler
