import Vprogs.Scheduler.Steps

/-!
The steps of the chain: a block appended, a rollback, finalization and pruning.
They keep the invariant where nothing in flight is cut off.
-/
namespace Vprogs.Scheduler

open Abi Smt

/-! ### Bounds -/

namespace Bounded

variable {chain : Chain} {root cursor : Nat} {pass : Option Pass}

theorem append (h : Bounded chain root cursor pass) (hmem : chain.tip ≠ 0 → chain.tip ∈ chain.ids)
    (hids : chain.tip = 0 → chain.ids = []) {id : Nat} (htip : chain.tip < id)
    (hid : id = chain.seen + 1 ∨ chain.base ≤ id ∧ id ≤ chain.seen) :
    Bounded { chain with tip := id, ids := chain.ids ++ [id], seen := max chain.seen id }
      (if root = 0 then id else root) cursor pass := by
  have hbase := h.base_le
  have hdropped := h.dropped_base
  have hlt : chain.dropped * Bucket.CAPACITY < id := by omega
  constructor
  case tip_le => exact Nat.le_max_right _ _
  case base_le => exact Nat.le_trans hbase (Nat.add_le_add_right (Nat.le_max_left _ _) 1)
  case dropped_base => exact hdropped
  case dropped =>
    refine h.dropped.imp_right fun hold c hc => ?_
    match List.mem_append.mp hc with
    | .inl hc => exact hold c hc
    | .inr hc => exact List.mem_singleton.mp hc ▸ hlt
  case unrooted =>
    intro hzero
    split at hzero <;> omega
  case rooted =>
    intro _
    split
    · next hzero =>
      have ⟨hcursor, htip'⟩ := h.unrooted hzero
      refine ⟨by omega, by change id ≠ 0; omega, .inr fun c hc => ?_⟩
      change c ∈ chain.ids ++ [id] at hc
      rw [hids htip', List.nil_append, List.mem_singleton] at hc
      exact Nat.le_of_eq hc.symm
    · next hne =>
      have ⟨hcursor, htip', hroot⟩ := h.rooted hne
      refine ⟨hcursor, by change id ≠ 0; omega, hroot.imp_right fun hold c hc => ?_⟩
      match List.mem_append.mp hc with
      | .inl hc => exact hold c hc
      | .inr hc =>
        have hle := hold _ (hmem htip')
        rw [List.mem_singleton.mp hc]
        omega
  case pass => exact h.pass

theorem rollback (h : Bounded chain root cursor pass) {target : Nat} (hlt : target < chain.tip)
    (hcursor : cursor ≤ target) :
    Bounded (chain.rollback target) (if target = 0 then 0 else root) cursor pass := by
  have hsub : ∀ c ∈ (chain.rollback target).ids, c ∈ chain.ids := fun c hc => List.mem_of_mem_filter hc
  have hroot : root ≠ 0 := fun hzero => by
    have := (h.unrooted hzero).2
    omega
  constructor
  case tip_le => exact Nat.le_trans (Nat.le_of_lt hlt) h.tip_le
  case base_le => exact h.base_le
  case dropped_base => exact h.dropped_base
  case dropped => exact h.dropped.imp_right fun hold c hc => hold c (hsub c hc)
  case unrooted =>
    intro hzero
    split at hzero
    · next ht => exact ⟨by omega, ht⟩
    · exact absurd hzero hroot
  case rooted =>
    intro hne
    split at hne
    · exact absurd rfl hne
    · next ht =>
      have ⟨hlt, _, hor⟩ := h.rooted hroot
      rw [if_neg ht]
      exact ⟨hlt, ht, hor.imp_right fun hold c hc => hold c (hsub c hc)⟩
  case pass => exact h.pass

theorem finalize (h : Bounded chain root cursor pass) : Bounded (chain.finalize root) root cursor pass := by
  have hbase := h.base_le
  have hdropped := h.dropped_base
  constructor
  case tip_le => exact h.tip_le
  case base_le => exact Nat.max_le.mpr ⟨hbase, Nat.min_le_right _ _⟩
  case dropped_base =>
    change (if 1 < root then _ else _) * _ < max chain.base (min root (chain.seen + 1))
    split
    · next hroot =>
      have hlocate := Bucket.locate_mul_lt (show 0 < root by omega)
      unfold Bucket.locate Bucket.CAPACITY at *
      omega
    · exact Nat.lt_of_lt_of_le hdropped (Nat.le_max_left _ _)
  case dropped =>
    change (if 1 < root then _ else _) * _ ≤ _ ∨ ∀ c ∈ chain.ids, (if 1 < root then _ else _) * _ < c
    split
    · next hroot =>
      have hlocate := Bucket.locate_mul_lt (show 0 < root by omega)
      have ⟨hlt, _, hor⟩ := h.rooted (by omega)
      have hmul : max chain.dropped (min (Bucket.locate root) (Bucket.locate chain.seen - 1)) *
            Bucket.CAPACITY ≤ max (chain.dropped * Bucket.CAPACITY) (root - 1) := by
        unfold Bucket.locate Bucket.CAPACITY at *
        omega
      match h.dropped, hor with
      | .inl hold, .inl hroot => exact .inl (by omega)
      | .inr hold, .inl hroot =>
        match Nat.le_total (chain.dropped * Bucket.CAPACITY) (root - 1) with
        | .inl hle => exact .inl (by omega)
        | .inr hle => exact .inr fun c hc => by have := hold c hc; omega
      | .inl hold, .inr hroot => exact .inr fun c hc => by have := hroot c hc; omega
      | .inr hold, .inr hroot =>
        exact .inr fun c hc => by have := hold c hc; have := hroot c hc; omega
    · exact h.dropped
  case unrooted => exact h.unrooted
  case rooted => exact h.rooted
  case pass => exact h.pass

theorem claim (h : Bounded chain root cursor pass) {upper : Nat} (hpos : 0 < root)
    (hle : root ≤ upper) {snapshot : Nat} :
    Bounded chain (upper + 1) upper (some ⟨root, upper, snapshot⟩) := by
  have ⟨hcursor, htip, _⟩ := h.rooted (Nat.ne_of_gt hpos)
  refine ⟨h.tip_le, h.base_le, h.dropped_base, ?_, fun hzero => by omega, fun _ => ?_, fun p hp => ?_⟩
  · exact h.dropped.imp_left fun hold => by omega
  · exact ⟨Nat.lt_succ_self upper, htip, .inl rfl⟩
  · cases hp
    exact Nat.le_refl upper

theorem unclaimed (h : Bounded chain root cursor pass) : Bounded chain root cursor none :=
  { h with pass := fun _ hp => by cases hp }

end Bounded

namespace System

variable {D : Type} {B : Blocks} {cfg : Config} {s s' : System D} {target i : Nat}

/-- Every batch has committed. -/
def Quiet (s : System D) : Prop := ∀ j y, s.batches j = some y → y.committed = true

/-! ### Append -/

/-- A batch that has just been scheduled. -/
theorem Consistent.scheduled (h : s.Consistent B target) (hparent : B.parent i = s.chain.tip) (hpos : 0 < i)
    {restored : Bool} (hmetadata : restored = true → s.store.hasMetadata i = true) :
    Batch.Ok B s.store i s.lastCommitted s.cursor i { restored := restored, source := s.resources } := by
  have hlt : s.chain.tip < i := hparent ▸ B.parent_lt hpos
  have htip : B.Anc s.chain.tip i := hparent ▸ .parent hpos
  have hlast := h.last.le
  have hbelow : ∀ c, B.Anc c i → c < i → B.Anc c s.chain.tip := fun c hc hci => hparent ▸ hc.of_lt hci
  constructor
  case pos => exact hpos
  case canonical => exact .refl
  case committed => exact ⟨fun hfalse => (by cases hfalse), fun hle => by omega⟩
  case declared => intro _ _ hread; cases hread
  case read => intro _ _ _ hread; cases hread
  case written => intro _ _ hwritten; cases hwritten
  case done => intro hfalse; cases hfalse
  case intact =>
    intro _ r hr
    refine h.stored.restorable i (hmetadata (hr.resolve_right (List.not_mem_nil))) (.inr fun hanc => ?_) r
    exact Nat.not_le.mpr hlt hanc.le
  case behind =>
    rintro _ r (⟨_, hwritten⟩ | ⟨_, _, hread⟩ | hr)
    · exact absurd rfl hwritten
    · exact absurd rfl hread
    · cases hr
  case chained =>
    intro r p hp
    have ⟨hppos, hanc, hmem, hafter⟩ := h.inMemory r p hp
    refine ⟨hppos, hanc.trans htip, Nat.lt_of_le_of_lt hanc.le hlt, hmem, fun c hc hpc hci => ?_⟩
    exact hafter c (hbelow c hc hci) hpc

/-- The state after a block is appended to the tip. -/
theorem append_eq (hstep : s.append B cfg i = some s') :
    B.parent i = s.chain.tip ∧ s.chain.tip < i ∧
      (i = s.chain.seen + 1 ∨ s.chain.base ≤ i ∧ i ≤ s.chain.seen) ∧
      ∃ oracle, s.oracle.append cfg.debug i = some oracle ∧ s' = { s with
        chain := { s.chain with tip := i, ids := s.chain.ids ++ [i], seen := max s.chain.seen i }
        oracle := oracle
        batches := Function.update s.batches i (some {
          restored := decide (i ≤ s.chain.seen) && cfg.supportsRestore && s.store.hasMetadata i
          source := s.resources })
        resources := fun r => if r ∈ (B.body i).resources then some i else s.resources r
        root := if s.root = 0 then i else s.root } := by
  obtain ⟨hparent, hstep⟩ := guard_bind_eq_some.mp hstep
  obtain ⟨chain, hchain, hstep⟩ := Option.bind_eq_some_iff.mp hstep
  obtain ⟨oracle, horacle, heq⟩ := Option.bind_eq_some_iff.mp hstep
  cases heq
  obtain ⟨hguard, heq⟩ := Option.ite_none_right_eq_some.mp hchain
  cases heq
  exact ⟨hparent, hguard.1, hguard.2, oracle, horacle, rfl⟩

theorem Consistent.append (h : s.Consistent B target)
    (hforward : Bucket.locate s.chain.seen ≤ Bucket.locate i)
    (hstep : s.append B cfg i = some s') : s'.Consistent B target := by
  obtain ⟨hparent, hlt, hid, oracle, horacle, heq⟩ := append_eq hstep
  subst heq
  have hpos : 0 < i := by omega
  have htip : B.Anc s.chain.tip i := hparent ▸ .parent hpos
  have hbelow : ∀ c, B.Anc c i → c ≠ i → B.Anc c s.chain.tip := fun c hc hne =>
    hparent ▸ hc.of_lt (Nat.lt_of_le_of_ne hc.le hne)
  constructor
  case stands => exact h.stands.append hlt hforward horacle
  case bounded =>
    refine h.bounded.append (fun hne => (h.ids _).mpr ⟨Nat.pos_of_ne_zero hne, .refl⟩) (fun hzero => ?_) hlt hid
    refine List.eq_nil_iff_forall_not_mem.mpr fun c hc => ?_
    have ⟨hcpos, hanc⟩ := (h.ids c).mp hc
    have := hanc.le
    omega
  case ids =>
    intro c
    change c ∈ s.chain.ids ++ [i] ↔ _
    rw [List.mem_append, List.mem_singleton, h.ids]
    constructor
    · exact fun hc => hc.elim (fun ⟨hcpos, hc⟩ => ⟨hcpos, hc.trans htip⟩) fun hc => ⟨hc ▸ hpos, hc ▸ .refl⟩
    · intro ⟨hcpos, hc⟩
      by_cases hci : c = i
      · exact .inr hci
      · exact .inl ⟨hcpos, hbelow c hc hci⟩
  case last => exact h.last.trans htip
  case stored => exact h.stored.weaken (Nat.le_refl _) fun b hb hanc => hb (hanc.trans htip)
  case batch =>
    intro j y hy
    dsimp only at hy
    rw [Function.update_apply] at hy
    split at hy
    · next hj =>
      subst hj
      cases hy
      exact h.scheduled hparent hpos fun hres => (Bool.and_eq_true_iff.mp hres).2
    · exact (h.batch j y hy).mono (·.trans htip) Iff.rfl (fun _ _ hintact => hintact) fun _ hbehind => hbehind
  case held =>
    intro c hcpos hc
    by_cases hci : c = i
    · subst hci
      exact ⟨_, Function.update_self c _ s.batches⟩
    · have ⟨y, hy⟩ := h.held c hcpos (hbelow c hc hci)
      exact ⟨y, (Function.update_of_ne hci _ s.batches).trans hy⟩
  case handed =>
    intro j y r p z hy hres hsource hread hz
    dsimp only at hy hz
    rw [Function.update_apply] at hy
    split at hy
    · cases hy
      exact absurd rfl hread
    · have hok := h.batch j y hy
      have hpj := (hok.chained r p hsource).2.2.1
      have hji := hok.canonical.le
      rw [Function.update_of_ne (by omega)] at hz
      exact h.handed j y r p z hy hres hsource hread hz
  case inMemory =>
    intro r p hp
    dsimp only at hp
    split at hp
    · next hmem =>
      cases hp
      exact ⟨hpos, .refl, hmem, fun c hc hlt => absurd hc.le (Nat.not_le.mpr hlt)⟩
    · next hmem =>
      have ⟨hppos, hanc, hpmem, hafter⟩ := h.inMemory r p hp
      refine ⟨hppos, hanc.trans htip, hpmem, fun c hc hlt => ?_⟩
      by_cases hci : c = i
      · exact hci ▸ hmem
      · exact hafter c (hbelow c hc hci) hlt

theorem append_inv (h : s.Invariant B) (hforward : Bucket.locate s.chain.seen ≤ Bucket.locate i)
    (hquiet : i ≤ s.chain.seen → cfg.supportsRestore = true → s.store.hasMetadata i = true → s.Quiet)
    (hstep : s.append B cfg i = some s') : s'.Invariant B := by
  have hnext := h.toConsistent.append hforward hstep
  obtain ⟨hparent, hlt, hid, oracle, horacle, heq⟩ := append_eq hstep
  subst heq
  have hpos : 0 < i := by omega
  have hlast := h.last.le
  have hbelow : ∀ c, B.Anc c i → c ≠ i → B.Anc c s.chain.tip := fun c hc hne =>
    hparent ▸ hc.of_lt (Nat.lt_of_le_of_ne hc.le hne)
  refine ⟨hnext, fun j y hy r hr => ?_, fun j y hy hres hopen => ?_, fun r hr c hc hlt => ?_⟩
  · dsimp only at hy
    rw [Function.update_apply] at hy
    split at hy
    · next hj =>
      subst hj
      cases hy
      exact fun c hc hlt' hci => h.evicted r hr c (hbelow c hc (Nat.ne_of_lt hci)) hlt'
    · exact h.unchained j y hy r hr
  · dsimp only at hy
    rw [Function.update_apply] at hy
    split at hy
    · next hj =>
      subst hj
      cases hy
      have ⟨hleft, hmetadata⟩ := Bool.and_eq_true_iff.mp hres
      have ⟨hseen, hsupports⟩ := Bool.and_eq_true_iff.mp hleft
      have hquiet := hquiet (of_decide_eq_true hseen) hsupports hmetadata
      change s.lastCommitted = B.parent j
      match Nat.eq_zero_or_pos s.chain.tip with
      | .inl hzero => omega
      | .inr htpos =>
        have ⟨y, hy⟩ := h.held _ htpos .refl
        have hle := (h.committed_iff hy).mp (hquiet _ y hy)
        omega
    · exact h.alone j y hy hres hopen
  · dsimp only at hr
    split at hr
    · cases hr
    · next hmem =>
      by_cases hci : c = i
      · exact hci ▸ hmem
      · exact h.evicted r hr c (hbelow c hc hci) hlt

/-! ### Rollback -/

theorem Consistent.isCanonical_iff (h : s.Consistent B target) {c : Nat} : s.isCanonical c = true ↔
    0 < c ∧ c ≤ s.chain.tip ∧ (Bucket.locate c < s.chain.dropped ∨ c ∈ s.chain.ids) := by
  rw [isCanonical, h.stands.isCanonical, Chain.isCanonical_iff]

theorem Consistent.isCanonical_of_anc (h : s.Consistent B target) {c : Nat} (hpos : 0 < c)
    (hc : B.Anc c s.chain.tip) : s.isCanonical c = true :=
  h.isCanonical_iff.mpr ⟨hpos, hc.le, .inr ((h.ids c).mpr ⟨hpos, hc⟩)⟩

/-- Above a target a rollback can reach, the oracle answers as the chain does; a
rollback to 0 may walk orphans of dropped buckets, too. -/
theorem Consistent.isCanonical_closed (h : s.Consistent B target) {t a : Nat} (hcursor : s.cursor ≤ t)
    (ht : t = 0 ∨ t ∈ s.chain.ids) (ha : s.isCanonical a = true) (hlt : t < a) :
    B.Anc t a ∧ ∀ c, B.Anc c a → t < c → s.isCanonical c = true := by
  have ⟨hpos, hle, hor⟩ := h.isCanonical_iff.mp ha
  by_cases hmem : a ∈ s.chain.ids
  · have hanc := ((h.ids a).mp hmem).2
    refine ⟨?_, fun c hc hc' => h.isCanonical_of_anc (by omega) (hc.trans hanc)⟩
    match ht with
    | .inl hzero => exact hzero ▸ .zero a
    | .inr ht => exact ((h.ids t).mp ht).2.of_le hanc (Nat.le_of_lt hlt)
  · have hdropped := hor.resolve_right hmem
    have hbucket := Bucket.lt_of_locate_lt hdropped
    have hzero : t = 0 := by
      refine ht.resolve_right fun ht => ?_
      match h.bounded.dropped with
      | .inl hold => omega
      | .inr hold =>
        have := hold t ht
        omega
    refine ⟨hzero ▸ .zero a, fun c hc hc' => h.isCanonical_iff.mpr ⟨by omega, ?_, .inl ?_⟩⟩
    · exact Nat.le_trans hc.le hle
    · exact Bucket.locate_lt_of_le (by omega) (Nat.le_trans hc.le hbucket)

theorem Consistent.anc_target (h : s.Consistent B target) {t : Nat} (ht : t = 0 ∨ t ∈ s.chain.ids) :
    B.Anc t s.chain.tip := by
  match ht with
  | .inl hzero => exact hzero ▸ .zero _
  | .inr hmem => exact ((h.ids t).mp hmem).2

/-- The state after a rollback. -/
theorem rollback_eq {t : Nat} (hstep : s.rollback cfg t = some s') :
    (t < s.chain.tip ∧ s.cursor ≤ t ∧ (t = 0 ∨ t ∈ s.chain.ids)) ∧
      ∃ oracle, s.oracle.rollback cfg.debug t = some oracle ∧ s' = { s with
        store := s.store.commit (rollbackWrites s.store s.isCanonical t s.chain.tip)
        chain := s.chain.rollback t
        oracle := oracle
        batches := fun id => if id ≤ t then s.batches id else none
        resources := fun _ => none
        lastCommitted := min s.lastCommitted t
        root := if t = 0 then 0 else s.root } := by
  obtain ⟨hguard, hstep⟩ := guard_bind_eq_some.mp hstep
  obtain ⟨oracle, horacle, heq⟩ := Option.bind_eq_some_iff.mp hstep
  cases heq
  exact ⟨hguard, oracle, horacle, rfl⟩

/-- A rollback, whether its target has committed or is in flight. -/
theorem Consistent.rollback {t : Nat} (h : s.Consistent B target)
    (hflight : s.cursor ≤ s.lastCommitted ∨ t ≤ s.lastCommitted) (hstep : s.rollback cfg t = some s') :
    s'.Consistent B t := by
  obtain ⟨⟨hlt, hcursor, ht⟩, oracle, horacle, heq⟩ := rollback_eq hstep
  subst heq
  have hanc := h.anc_target ht
  obtain ⟨hversions, hrollback, _⟩ :=
    StateStore.walked_others (s := s.store) (rollbackRange s.isCanonical t s.chain.tip)
  constructor
  case stands => exact h.stands.rollback horacle
  case bounded => exact h.bounded.rollback hlt hcursor
  case ids =>
    intro c
    change c ∈ s.chain.ids.filter _ ↔ 0 < c ∧ B.Anc c t
    rw [List.mem_filter, h.ids, decide_eq_true_iff]
    constructor
    · exact fun ⟨⟨hpos, hc⟩, hct⟩ => ⟨hpos, hc.of_le hanc hct⟩
    · exact fun ⟨hpos, hc⟩ => ⟨⟨hpos, hc.trans hanc⟩, hc.le⟩
  case last =>
    change B.Anc (min s.lastCommitted t) t
    match Nat.le_total s.lastCommitted t with
    | .inl hle =>
      rw [Nat.min_eq_left hle]
      exact h.last.of_le hanc hle
    | .inr hle =>
      rw [Nat.min_eq_right hle]
      exact .refl
  case stored =>
    refine h.stored.rollback hcursor h.last hanc hflight (fun c hc hlt => ?_)
      fun a ha hlt _ => h.isCanonical_closed hcursor ht ha hlt
    exact h.isCanonical_of_anc (by omega) hc
  case batch =>
    intro j y hy
    dsimp only at hy
    split at hy
    case isFalse => cases hy
    case isTrue hj =>
    refine (h.batch j y hy).mono (fun hj' => hj'.of_le hanc hj) ?_ (fun _ r hintact data hup => ?_)
      fun r hbehind m hm hmj hlt hup => ?_
    · change j ≤ s.lastCommitted ↔ j ≤ min s.lastCommitted t
      omega
    · rw [StateStore.rollbackPtr, StateStore.version, rollbackWrites, hrollback, hversions]
      exact hintact data hup
    · rw [StateStore.rollbackPtr, rollbackWrites, hrollback]
      exact hbehind m hm hmj hlt hup
  case held =>
    intro c hpos hc
    obtain ⟨y, hy⟩ := h.held c hpos (hc.trans hanc)
    exact ⟨y, (if_pos hc.le).trans hy⟩
  case handed =>
    intro j y r p z hy hres hsource hread hz
    dsimp only at hy hz
    split at hy
    · split at hz
      · exact h.handed j y r p z hy hres hsource hread hz
      · cases hz
    · cases hy
  case inMemory => intro _ _ hr; cases hr

theorem rollback_inv {t : Nat} (h : s.Invariant B)
    (hsettled : ∀ j y, s.batches j = some y → y.committed = false → t < j)
    (hstep : s.rollback cfg t = some s') : s'.Invariant B := by
  obtain ⟨⟨hlt, hcursor, ht⟩, oracle, _, heq⟩ := rollback_eq hstep
  have hanc := h.anc_target ht
  -- the batches up to the target have committed
  have hle : t ≤ s.lastCommitted := by
    match Nat.eq_zero_or_pos t with
    | .inl hzero => omega
    | .inr hpos =>
      have ⟨y, hy⟩ := h.held t hpos hanc
      refine (h.committed_iff hy).mp ?_
      by_contra hne
      exact Nat.lt_irrefl _ (hsettled t y hy (by simpa using hne))
  have hnext := h.toConsistent.rollback (.inr hle) hstep
  subst heq
  have hmin : min s.lastCommitted t = t := Nat.min_eq_right hle
  have hheld : ∀ j y, (if j ≤ t then s.batches j else none) = some y → j ≤ t ∧ y.committed = true := by
    intro j y hy
    split at hy
    · next hj =>
      refine ⟨hj, ?_⟩
      by_contra hne
      have := hsettled j y hy (by simpa using hne)
      omega
    · cases hy
  refine ⟨{ hnext with stored := hnext.stored.settled ?_ }, fun j y hy r hr c hc hlt hcj => ?_,
    fun j y hy hres hopen => ?_, fun r _ c hc hlt => ?_⟩
  · change t ≤ min s.lastCommitted t
    omega
  · have hjt := (hheld j y hy).1
    change min s.lastCommitted t < c at hlt
    omega
  · rw [(hheld j y hy).2] at hopen
    cases hopen
  · have hct := hc.le
    change min s.lastCommitted t < c at hlt
    change c ≤ t at hct
    omega

/-! ### Finalization and pruning -/

theorem Consistent.finalize {below : Nat} (h : s.Consistent B target) (hstep : s.finalize below = some s') :
    s'.Consistent B target := by
  have ⟨_, heq⟩ := guard_bind_eq_some.mp hstep
  cases heq
  exact { h with stands := h.stands.finalize s.root, bounded := h.bounded.finalize }

theorem finalize_inv {below : Nat} (h : s.Invariant B) (hstep : s.finalize below = some s') :
    s'.Invariant B := by
  have hnext := h.toConsistent.finalize hstep
  have ⟨_, heq⟩ := guard_bind_eq_some.mp hstep
  cases heq
  exact ⟨hnext, h.unchained, h.alone, h.evicted⟩

theorem claim_inv {ceiling : Nat} (h : s.Invariant B) (hstep : s.claim ceiling = some s') :
    s'.Invariant B := by
  have ⟨⟨_, hpos, hle⟩, heq⟩ := guard_bind_eq_some.mp hstep
  cases heq
  have hcursor : s.cursor ≤ min s.threshold ceiling - 1 :=
    Nat.le_trans (Nat.le_of_lt (h.bounded.rooted (Nat.ne_of_gt hpos)).1) hle
  refine ⟨{ h.toConsistent with
    bounded := h.bounded.claim hpos hle
    stored := h.stored.weaken hcursor fun _ hb => hb
    batch := fun j y hy => ?_ }, h.unchained, h.alone, h.evicted⟩
  refine (h.batch j y hy).mono (fun hj => hj) Iff.rfl (fun _ _ hintact => hintact)
    fun r hbehind m hm hmj hlt => hbehind m hm hmj (Nat.lt_of_le_of_lt hcursor hlt)

section pass

variable {p : Pass}

theorem Invariant.pass_agree (h : s.Invariant B)
    (hview : ∀ m, p.lower ≤ m → m ≤ p.upper → (p.isCanonical s.oracle m = true ↔ m ∈ s.chain.ids))
    (m : Nat) (hlower : p.lower ≤ m) (hupper : m ≤ p.upper) (hpos : 0 < m) :
    p.isCanonical s.oracle m = true ↔ B.Anc m s.chain.tip := by
  rw [hview m hlower hupper, h.ids]
  exact and_iff_right hpos

theorem Invariant.pass_settled (h : s.Invariant B)
    (hflight : ∀ j y, s.batches j = some y → y.committed = false → ¬ (p.lower ≤ j ∧ j ≤ p.upper)) (m : Nat)
    (hlower : p.lower ≤ m) (hupper : m ≤ p.upper) (hm : B.Anc m s.chain.tip) : B.Anc m s.lastCommitted := by
  match Nat.eq_zero_or_pos m with
  | .inl hzero => exact hzero ▸ .zero _
  | .inr hpos =>
    have ⟨y, hy⟩ := h.held m hpos hm
    refine h.last_of_le hm ((h.committed_iff hy).mp ?_)
    by_contra hne
    exact hflight m y hy (by simpa using hne) ⟨hlower, hupper⟩

end pass

/-- A pass that prunes no block in flight, by a view that still is the chain's. -/
theorem prune_inv (h : s.Invariant B)
    (hflight : ∀ p, s.pass = some p → ∀ j y, s.batches j = some y → y.committed = false →
      ¬ (p.lower ≤ j ∧ j ≤ p.upper))
    (hview : ∀ p, s.pass = some p → ∀ m, p.lower ≤ m → m ≤ p.upper →
      (p.isCanonical s.oracle m = true ↔ m ∈ s.chain.ids))
    (hstep : s.prune = some s') : s'.Invariant B := by
  have ⟨p, hp, heq⟩ := Option.bind_eq_some_iff.mp hstep
  cases heq
  replace hflight := hflight p hp
  have hcursor := h.bounded.pass p hp
  have agree := h.pass_agree (hview p hp)
  have settled := h.pass_settled hflight
  refine ⟨{ h.toConsistent with
    bounded := h.bounded.unclaimed
    stored := h.stored.prune hcursor h.last agree settled
    batch := fun j y hy => ?_ }, h.unchained, h.alone, h.evicted⟩
  have hok := h.batch j y hy
  refine { hok with
    intact := fun hopen r hr => ?_
    behind := fun hopen r hr m hm hmj hlt hup => ?_ }
  · refine h.stored.intact_prune hcursor agree (hflight j y hy hopen) (.inr (.inr ?_)) (hok.intact hopen r hr)
    intro m hlower hupper hm
    have hle := (settled m hlower hupper hm).le
    have hlt := h.last_lt hy hopen
    omega
  · rw [StateStore.rollbackPtr_prune, if_neg (by change s.cursor < m at hlt; omega)]
    exact hok.behind hopen r hr m hm hmj hlt hup

end System

end Vprogs.Scheduler
