import Vprogs.Scheduler.Invariant

/-!
The steps of a batch: scheduled, read, executed or restored, persisted and
committed. Each keeps the invariant.
-/
namespace Vprogs.Scheduler

open Abi Smt

theorem guard_bind_eq_some {α : Type} {p : Prop} [Decidable p] {f : Unit → Option α} {a : α} :
    (guard p >>= f) = some a ↔ p ∧ f () = some a := by
  by_cases hp : p <;> simp [guard, hp]

theorem exists_of_any {α : Type} {p : α → Bool} {o : Option α} (h : o.any p = true) :
    ∃ a, o = some a ∧ p a = true := by
  cases o with
  | none => cases h
  | some a => exact ⟨a, rfl, h⟩

namespace System

variable {D : Type} {B : Blocks} {s s' : System D} {target i : Nat} {r : ResourceId}

/-- One batch moves on, with its writes. -/
theorem Consistent.update (h : s.Consistent B target) {x x' : Batch} (hx : s.batches i = some x)
    {store : StateStore} (smt : SmtStore D) {last : Nat}
    (stored : Stored B store s.chain.tip last s.cursor target) (htip : B.Anc last s.chain.tip)
    (hok : x'.Ok B store s.chain.tip last s.cursor i)
    (others : ∀ j y, j ≠ i → s.batches j = some y → (j ≤ s.lastCommitted ↔ j ≤ last))
    (hintact : ∀ j r, Intact B s.store j r → Intact B store j r)
    (hbehind : ∀ j r, Behind B s.store s.cursor j r → Behind B store s.cursor j r)
    (hwritten : ∀ r, x.written r ≠ none → x'.written r ≠ none)
    (hhanded : ∀ r p y, x'.restored = false → x'.source r = some p → x'.read r ≠ none →
      s.batches p = some y → y.written r ≠ none) :
    Consistent B { s with
      store := store, smt := smt, batches := Function.update s.batches i (some x')
      lastCommitted := last } target := by
  set s' : System D := { s with
    store := store, smt := smt, batches := Function.update s.batches i (some x')
    lastCommitted := last } with hs'
  have hself : s'.batches i = some x' := Function.update_self i (some x') s.batches
  have hother : ∀ j, j ≠ i → s'.batches j = s.batches j := fun j hj =>
    Function.update_of_ne hj (some x') s.batches
  constructor
  case stands => exact h.stands
  case bounded => exact h.bounded
  case ids => exact h.ids
  case last => exact htip
  case stored => exact stored
  case batch =>
    intro j y hy
    by_cases hj : j = i
    · subst hj
      rw [hself] at hy
      cases hy
      exact hok
    · rw [hother j hj] at hy
      exact (h.batch j y hy).mono (fun hanc => hanc) (others j y hj hy) (fun _ r => hintact j r) (hbehind j)
  case held =>
    intro c hpos hc
    by_cases hci : c = i
    · exact ⟨x', hci ▸ hself⟩
    · have ⟨y, hy⟩ := h.held c hpos hc
      exact ⟨y, (hother c hci).trans hy⟩
  case handed =>
    intro j y r p z hy hres hsource hread hz
    by_cases hj : j = i
    · subst hj
      rw [hself] at hy
      cases hy
      have hpj := (hok.chained r p hsource).2.2.1
      rw [hother p (Nat.ne_of_lt hpj)] at hz
      exact hhanded r p z hres hsource hread hz
    · rw [hother j hj] at hy
      by_cases hp : p = i
      · subst hp
        rw [hself] at hz
        cases hz
        exact hwritten r (h.handed j y r p x hy hres hsource hread hx)
      · rw [hother p hp] at hz
        exact h.handed j y r p z hy hres hsource hread hz
  case inMemory => exact h.inMemory

/-- One batch moves on in memory. -/
theorem Consistent.setBatch (h : s.Consistent B target) {x x' : Batch} (hx : s.batches i = some x)
    (hok : x'.Ok B s.store s.chain.tip s.lastCommitted s.cursor i)
    (hwritten : ∀ r, x.written r ≠ none → x'.written r ≠ none)
    (hhanded : ∀ r p y, x'.restored = false → x'.source r = some p → x'.read r ≠ none →
      s.batches p = some y → y.written r ≠ none) :
    (s.setBatch i x').Consistent B target :=
  h.update hx s.smt h.stored h.last hok (fun _ _ _ _ => Iff.rfl) (fun _ _ hintact => hintact)
    (fun _ _ hbehind => hbehind) hwritten hhanded

/-- Nothing new is in flight when a batch moves on. -/
theorem Invariant.moved (h : s.Invariant B) {x x' : Batch} (hx : s.batches i = some x) {store : StateStore}
    (hrestored : x'.restored = x.restored) (hsource : x'.source = x.source)
    (hcommitted : x'.committed = x.committed)
    (hnext : Consistent B { s with
      store := store, batches := Function.update s.batches i (some x') } 0) :
    Invariant B { s with store := store, batches := Function.update s.batches i (some x') } where
  toConsistent := hnext
  unchained j y hy r hr := by
    dsimp only at hy
    rw [Function.update_apply] at hy
    split at hy
    · next hj =>
      subst hj
      cases hy
      exact h.unchained j x hx r (hsource ▸ hr)
    · exact h.unchained j y hy r hr
  alone j y hy hres hopen := by
    dsimp only at hy
    rw [Function.update_apply] at hy
    split at hy
    · next hj =>
      subst hj
      cases hy
      exact h.alone j x hx (hrestored ▸ hres) (hcommitted ▸ hopen)
    · exact h.alone j y hy hres hopen
  evicted := h.evicted

/-! ### Reading -/

theorem Consistent.last_lt (h : s.Consistent B target) {x : Batch} (hx : s.batches i = some x)
    (hopen : x.committed = false) : s.lastCommitted < i := Nat.lt_of_not_le fun hle => by
  rw [(h.committed_iff hx).mpr hle] at hopen
  cases hopen

theorem Consistent.available (h : s.Consistent B target) {x : Batch} (hx : s.batches i = some x)
    (hopen : x.committed = false) (hclear : x.source r = none → s.Clear B target i r) {st : StateVersion}
    (hst : s.available x r = some st) :
    st.norm = B.snapshot (B.parent i) r ∧ st.version < i ∧
      (x.source r = none → Behind B s.store s.cursor i r) := by
  have hok := h.batch i x hx
  have hlt := h.last_lt hx hopen
  unfold System.available at hst
  cases hsource : x.source r with
  | some p =>
    rw [hsource] at hst
    have ⟨_, hanc, hpi, _, huntouched⟩ := hok.chained r p hsource
    have ⟨y, hy, hwritten⟩ := Option.bind_eq_some_iff.mp hst
    have ⟨hnorm, hversion⟩ := (h.batch p y hy).written_norm hwritten
    exact ⟨hnorm.trans (huntouched.snapshot_eq hok.pos hanc hpi).symm, by omega, fun hnone => by cases hnone⟩
  | none =>
    rw [hsource] at hst
    cases hst
    have ⟨hreads, hbehind⟩ := h.clear_reads (hclear hsource) hok.pos hok.canonical hlt
    rw [hreads, Blocks.norm_snapshot]
    exact ⟨rfl, Nat.lt_of_le_of_lt (Blocks.version_le _ r) (B.parent_lt hok.pos), fun _ => hbehind⟩

/-- The read of a batch, as far as the disk was clear for it. -/
theorem Consistent.read (h : s.Consistent B target)
    (hclear : ∀ x, s.batches i = some x → x.source r = none → s.Clear B target i r)
    (hstep : s.read B i r = some s') :
    s'.Consistent B target ∧ ∃ x st, s.batches i = some x ∧ s' = s.setBatch i (x.setRead r st) := by
  have ⟨x, hx, hstep⟩ := Option.bind_eq_some_iff.mp hstep
  have ⟨⟨hres, hnone, hmem⟩, hstep⟩ := guard_bind_eq_some.mp hstep
  have ⟨st, hst, heq⟩ := Option.bind_eq_some_iff.mp hstep
  cases heq
  have hok := h.batch i x hx
  have hunwritten : x.written r = none := by
    by_contra hne
    have ⟨st', hst'⟩ := Option.ne_none_iff_exists'.mp hne
    have ⟨readState, hread, _⟩ := hok.written r st' hst'
    rw [hnone] at hread
    cases hread
  have hopen : x.committed = false := by
    by_contra hne
    exact hok.done (by simpa using hne) r hmem hunwritten
  have ⟨hnorm, hversion, hbehind⟩ := h.available hx hopen (hclear x hx) hst
  refine ⟨h.setBatch hx (hok.setRead hunwritten hmem hversion (fun _ => hnorm) fun _ => hbehind)
    (fun _ hwritten => hwritten) (fun r' p y _ hsource hread hy => ?_), x, st, hx, rfl⟩
  rw [Batch.read_setRead] at hread
  split at hread
  · next heq =>
    subst heq
    have hfrom : x.source r' = some p := hsource
    unfold System.available at hst
    rw [hfrom] at hst
    have ⟨z, hz, hwritten⟩ := Option.bind_eq_some_iff.mp hst
    rw [hy] at hz
    cases hz
    rw [hwritten]
    exact Option.some_ne_none st
  · exact h.handed i x r' p y hx hres hsource hread hy

theorem Invariant.clear_source (h : s.Invariant B) {x : Batch} (hx : s.batches i = some x)
    (hsource : x.source r = none) : s.Clear B 0 i r := by
  intro j hj
  have ⟨hanc, hlt⟩ := h.mem_inFlight_iff.mp hj
  refine ⟨fun hji => ?_, fun hzero => by omega⟩
  by_contra hup
  have hji' := hanc.of_le (h.batch i x hx).canonical (Nat.le_of_lt hji)
  exact h.unchained i x hx r hsource j hji' hlt hji (Blocks.resources_of_updateAt hup)

theorem read_inv (h : s.Invariant B) (hstep : s.read B i r = some s') : s'.Invariant B := by
  have ⟨hnext, x, st, hx, heq⟩ := h.toConsistent.read (fun _ hx => h.clear_source hx) hstep
  subst heq
  exact h.moved hx rfl rfl rfl hnext

/-! ### Executing and restoring -/

theorem Consistent.execute (h : s.Consistent B target) (hstep : s.execute B i r = some s') :
    s'.Consistent B target ∧ ∃ x st, s.batches i = some x ∧ s' = s.setBatch i (x.setWritten r st) := by
  have ⟨x, hx, hstep⟩ := Option.bind_eq_some_iff.mp hstep
  have ⟨⟨hres, _, hneeds⟩, hstep⟩ := guard_bind_eq_some.mp hstep
  have ⟨readState, hread, heq⟩ := Option.bind_eq_some_iff.mp hstep
  cases heq
  have hok := h.batch i x hx
  rw [hok.run_eq hres hread (List.all_eq_true.mp hneeds)]
  refine ⟨h.setBatch hx (hok.setWritten hread (fun data hup => ?_) (fun hup => ?_) fun hrestored => ?_)
    (fun r' hwritten => ?_) (fun r' p y _ => h.handed i x r' p y hx hres), x, _, hx, rfl⟩
  · rw [hup]
  · rw [hup]
    exact ⟨rfl, hok.read hres r readState hread⟩
  · rw [hres] at hrestored
    cases hrestored
  · rw [Batch.written_setWritten]
    split
    · exact Option.some_ne_none _
    · exact hwritten

theorem execute_inv (h : s.Invariant B) (hstep : s.execute B i r = some s') : s'.Invariant B := by
  have ⟨hnext, x, st, hx, heq⟩ := h.toConsistent.execute hstep
  subst heq
  exact h.moved hx rfl rfl rfl hnext

/-- A restored batch gets what the block does, as far as the disk was clear for what it
only read. -/
theorem Consistent.restore (h : s.Consistent B target)
    (hclear : s.store.rollbackPtr i r = none → s.Clear B target i r) (hstep : s.restore B i r = some s') :
    s'.Consistent B target ∧ ∃ x readState writtenState, s.batches i = some x ∧
      (s.cursor = 0 → readState.norm = B.snapshot (B.parent i) r) ∧
      s' = s.setBatch i ((x.setRead r readState).setWritten r writtenState) := by
  have ⟨x, hx, hstep⟩ := Option.bind_eq_some_iff.mp hstep
  have ⟨⟨hres, hunwritten, hmem⟩, heq⟩ := guard_bind_eq_some.mp hstep
  cases heq
  have hok := h.batch i x hx
  have hopen : x.committed = false := by
    by_contra hne
    exact hok.done (by simpa using hne) r hmem hunwritten
  have hintact := hok.intact hopen r (.inl hres)
  have hlt := h.last_lt hx hopen
  suffices key : ∀ readState writtenState : StateVersion, readState.version < i →
      (∀ data, B.updateAt i r = some data → writtenState = ⟨i, data⟩) →
      (B.updateAt i r = none → writtenState = readState ∧
        readState.norm = B.snapshot (B.parent i) r) →
      Behind B s.store s.cursor i r → (s.cursor = 0 → readState.norm = B.snapshot (B.parent i) r) →
      (s.setBatch i ((x.setRead r readState).setWritten r writtenState)).Consistent B target ∧
        ∃ x' readState' writtenState', s.batches i = some x' ∧
          (s.cursor = 0 → readState'.norm = B.snapshot (B.parent i) r) ∧
          s.setBatch i ((x.setRead r readState).setWritten r writtenState) =
            s.setBatch i ((x'.setRead r readState').setWritten r writtenState') by
    cases hptr : s.store.rollbackPtr i r with
    | some old =>
      have ⟨_, hup, hold⟩ := h.stored.pointer i r old hptr
      have hne : s.store.rollbackPtr i r ≠ none := by
        rw [hptr]
        exact Option.some_ne_none old
      refine key _ _ ?_ (fun data hdata => ?_) (fun hnone => absurd hnone hup) (fun m hm _ => ?_) fun hzero => ?_
      · change old < i
        rw [hold]
        exact Nat.lt_of_le_of_lt (Blocks.version_le _ r) (B.parent_lt hok.pos)
      · exact h.stored.atVersion_of_intact hintact hdata
      · exact h.stored.closed i m r hne hm
      · rw [hold]
        exact h.stored.atVersion_snapshot hzero hne hok.pos
    | none =>
      have ⟨hreads, hbehind⟩ := h.clear_reads (hclear hptr) hok.pos hok.canonical hlt
      rw [hreads]
      refine key _ _ ?_ (fun data hdata => ?_) (fun _ => ⟨rfl, Blocks.norm_snapshot _ r⟩) hbehind
        fun _ => Blocks.norm_snapshot _ r
      · exact Nat.lt_of_le_of_lt (Blocks.version_le _ r) (B.parent_lt hok.pos)
      · rw [(hintact data hdata).1] at hptr
        cases hptr
  intro readState writtenState hversion hsome hnone hbehind hnorm
  refine ⟨h.setBatch hx ?_ (fun r' hwritten => ?_) (fun r' p y hfalse => ?_), x, readState, writtenState, hx,
    hnorm, rfl⟩
  · have hfresh : x.restored ≠ false := fun hfalse => by cases hres.symm.trans hfalse
    have hreadOk : (x.setRead r readState).Ok B s.store s.chain.tip s.lastCommitted s.cursor i :=
      hok.setRead hunwritten hmem hversion (fun hfalse => absurd hfalse hfresh) fun hfalse => absurd hfalse hfresh
    refine hreadOk.setWritten ?_ hsome hnone fun _ => hbehind
    rw [Batch.read_setRead, if_pos rfl]
  · rw [Batch.written_setWritten]
    split
    · exact Option.some_ne_none _
    · exact hwritten
  · cases hres.symm.trans hfalse

theorem Invariant.clear_alone (h : s.Invariant B) {x : Batch} (hx : s.batches i = some x)
    (hres : x.restored = true) (hopen : x.committed = false) : s.Clear B 0 i r := by
  intro j hj
  have ⟨hanc, hlt⟩ := h.mem_inFlight_iff.mp hj
  refine ⟨fun hji => ?_, fun hzero => by omega⟩
  have hle := ((hanc.of_le (h.batch i x hx).canonical (Nat.le_of_lt hji)).of_lt hji).le
  rw [← h.alone i x hx hres hopen] at hle
  omega

theorem restore_inv (h : s.Invariant B) (hstep : s.restore B i r = some s') : s'.Invariant B := by
  have hclear : s.Clear B 0 i r := by
    have ⟨x, hx, hstep⟩ := Option.bind_eq_some_iff.mp hstep
    have ⟨⟨hres, hunwritten, hmem⟩, _⟩ := guard_bind_eq_some.mp hstep
    refine h.clear_alone hx hres ?_
    by_contra hne
    exact (h.batch i x hx).done (by simpa using hne) r hmem hunwritten
  have ⟨hnext, x, _, _, hx, _, heq⟩ := h.toConsistent.restore (fun _ => hclear) hstep
  subst heq
  exact h.moved hx rfl rfl rfl hnext

/-! ### Persisting -/

/-- A diff enters the store after the diffs of the blocks before it. -/
theorem Consistent.earlier (h : s.Consistent B target) {x : Batch} (hx : s.batches i = some x)
    (hres : x.restored = false) (hopen : x.committed = false) (hread : x.read r ≠ none)
    (hsubmitted : s.submitted x r = true) : Behind B s.store s.cursor i r := by
  have hok := h.batch i x hx
  unfold submitted at hsubmitted
  cases hsource : x.source r with
  | none => exact hok.behind hopen r (.inr (.inl ⟨hres, hsource, hread⟩))
  | some p =>
    rw [hsource] at hsubmitted
    have ⟨hppos, hp, hpi, _, huntouched⟩ := hok.chained r p hsource
    have ⟨y, hy, hstate⟩ := exists_of_any hsubmitted
    have hpok := h.batch p y hy
    intro m hm hmi hcursor hup
    have hmp : m ≤ p := Nat.le_of_not_lt fun hlt =>
      huntouched m hm hlt hmi (Blocks.resources_of_updateAt hup)
    have hmanc := hm.of_le hp hmp
    by_cases hpopen : y.committed = false
    · have hstored : y.restored = true ∨ r ∈ y.persisted := by
        rw [hpopen, Bool.false_or, Bool.or_eq_true] at hstate
        exact hstate.imp_right fun hr => by simpa using hr
      match Nat.lt_or_eq_of_le hmp with
      | .inl hlt =>
        refine hpok.behind hpopen r ?_ m hmanc hlt hcursor hup
        exact hstored.elim (fun hyres => .inl ⟨hyres, h.handed i x r p y hx hres hsource hread hy⟩)
          fun hpersisted => .inr (.inr hpersisted)
      | .inr heq =>
        subst heq
        have ⟨data, hdata⟩ := Option.ne_none_iff_exists'.mp hup
        rw [(hpok.intact hpopen r hstored data hdata).1]
        exact Option.some_ne_none _
    · have hple := hpok.committed.mp (by simpa using hpopen)
      exact h.stored.kept m r (by omega)
        (hmanc.trans (h.last_of_le hpok.canonical hple)) hcursor hup

theorem Consistent.write (h : s.Consistent B target) (hstep : s.write i r = some s') :
    s'.Consistent B target ∧ ∃ x store, s.batches i = some x ∧
      s' = { s with
        store := store
        batches := Function.update s.batches i (some { x with persisted := r :: x.persisted }) } := by
  have ⟨x, hx, hstep⟩ := Option.bind_eq_some_iff.mp hstep
  have ⟨⟨hres, hopen, hsubmitted⟩, hstep⟩ := guard_bind_eq_some.mp hstep
  have ⟨readState, hread, hstep⟩ := Option.bind_eq_some_iff.mp hstep
  have ⟨writtenState, hwritten, heq⟩ := Option.bind_eq_some_iff.mp hstep
  cases heq
  have hok := h.batch i x hx
  have hd := hok.diffed hres hread hwritten
  have hearlier := h.earlier hx hres hopen (by rw [hread]; exact Option.some_ne_none _) hsubmitted
  have hbehind : ∀ j r', Behind B s.store s.cursor j r' →
      Behind B (s.store.commit (StateDiff.write ⟨r, readState, writtenState⟩ i)) s.cursor j r' :=
    fun j r' hj m hm hmj hcursor hup => hd.rollbackPtr_write_ne (hj m hm hmj hcursor hup)
  refine ⟨h.update hx s.smt (h.stored.write hd hok.pos hearlier) h.last ?_ (fun _ _ _ _ => Iff.rfl)
    (fun j r => hd.intact) hbehind (fun _ hwritten => hwritten) (fun r' p y hres => h.handed i x r' p y hx hres),
    x, _, hx, rfl⟩
  refine { hok with
    intact := fun hx r' hr' => ?_
    behind := fun hx r' hr' => ?_ }
  · match hr' with
    | .inl hres => exact hd.intact (hok.intact hx r' (.inl hres))
    | .inr hr' =>
      match List.mem_cons.mp hr' with
      | .inl heq =>
        rw [heq]
        exact hd.intact_self
      | .inr hr' => exact hd.intact (hok.intact hx r' (.inr hr'))
  · refine hbehind i r' ?_
    match hr' with
    | .inl hr' => exact hok.behind hx r' (.inl hr')
    | .inr (.inl hr') => exact hok.behind hx r' (.inr (.inl hr'))
    | .inr (.inr hr') =>
      match List.mem_cons.mp hr' with
      | .inl heq => exact heq ▸ hearlier
      | .inr hr' => exact hok.behind hx r' (.inr (.inr hr'))

theorem write_inv (h : s.Invariant B) (hstep : s.write i r = some s') : s'.Invariant B := by
  have ⟨hnext, x, store, hx, heq⟩ := h.toConsistent.write hstep
  subst heq
  exact h.moved hx rfl rfl rfl hnext

/-! ### Committing -/

/-- The diffs name what the block does, restored or not. -/
theorem Consistent.committable (h : s.Consistent B target) {x : Batch} (hx : s.batches i = some x)
    {diffs : List StateDiff} (hdiffs : x.diffs (B.body i).resources = some diffs) :
    Committable B i diffs := by
  have ⟨hmap, hall⟩ := Batch.diffs_spec hdiffs
  refine ⟨fun d hd => ?_, hmap⟩
  have ⟨hread, hwritten⟩ := hall d hd
  have hok := h.batch i x hx
  have ⟨readState, hread', hsome, hnone⟩ := hok.written _ _ hwritten
  cases hread.symm.trans hread'
  exact ⟨fun data hup => ⟨hsome data hup, (hok.declared _ _ hread).2⟩, fun hup => (hnone hup).1⟩

theorem Consistent.committed_before (h : s.Consistent B target)
    (hall : (s.chain.ids.all fun c => decide (i ≤ c) || s.isCommitted c) = true) {c : Nat}
    (hc : B.Anc c s.chain.tip) (hlt : c < i) : c ≤ s.lastCommitted := by
  match Nat.eq_zero_or_pos c with
  | .inl hzero => omega
  | .inr hpos =>
    have hcommitted := List.all_eq_true.mp hall c ((h.ids c).mpr ⟨hpos, hc⟩)
    rw [decide_eq_false (by omega), Bool.false_or] at hcommitted
    have ⟨y, hy, hycommitted⟩ := exists_of_any hcommitted
    exact (h.committed_iff hy).mp hycommitted

/-- The next batch to commit is a child of the last one. -/
theorem Consistent.last_eq_parent (h : s.Consistent B target) {x : Batch} (hx : s.batches i = some x)
    (hopen : x.committed = false)
    (hall : (s.chain.ids.all fun c => decide (i ≤ c) || s.isCommitted c) = true) :
    s.lastCommitted = B.parent i := by
  have hok := h.batch i x hx
  have hlast := h.last_lt hx hopen
  have hle := h.committed_before hall ((Blocks.Anc.parent hok.pos).trans hok.canonical)
    (B.parent_lt hok.pos)
  have hge := ((h.last.of_le hok.canonical (Nat.le_of_lt hlast)).of_lt hlast).le
  omega

/-- The writes of a commit, whatever the SMT becomes. -/
theorem Consistent.commit (h : s.Consistent B target) {x : Batch} (hx : s.batches i = some x)
    (hopen : x.committed = false)
    (hall : (s.chain.ids.all fun c => decide (i ≤ c) || s.isCommitted c) = true)
    (hstored : (x.restored || (B.body i).resources.all x.persisted.contains) = true)
    {diffs : List StateDiff} (hdiffs : x.diffs (B.body i).resources = some diffs) (smt : SmtStore D) :
    Consistent B { s with
      store := s.store.commit (commitWrites diffs i x.restored), smt := smt
      batches := Function.update s.batches i (some { x with committed := true })
      lastCommitted := i } target := by
  have hok := h.batch i x hx
  have hlast := h.last_lt hx hopen
  have hparent := h.last_eq_parent hx hopen hall
  have hintact : ∀ r, Intact B s.store i r := by
    intro r data hup
    have hmem : r ∈ (B.body i).resources :=
      Blocks.resources_of_updateAt (by rw [hup]; exact Option.some_ne_none _)
    refine hok.intact hopen r ?_ data hup
    rw [Bool.or_eq_true] at hstored
    exact hstored.imp_right fun hpersisted => by simpa using List.all_eq_true.mp hpersisted r hmem
  have hdone : ∀ r ∈ (B.body i).resources, x.written r ≠ none := by
    intro r hr
    have ⟨d, hd, hid⟩ := (h.committable hx hdiffs).exists_diff hr
    rw [← hid, ((Batch.diffs_spec hdiffs).2 d hd).2]
    exact Option.some_ne_none _
  refine h.update hx smt
    (Stored.commit (hparent ▸ h.stored) hok.pos hok.canonical (h.committable hx hdiffs) hintact)
    hok.canonical ?_ (fun j y hj hy => ?_) (fun j r hj data hup => ?_) (fun j r hj m hm hmj hcursor hup => ?_)
    (fun _ hwritten => hwritten) (fun r p y hres => h.handed i x r p y hx hres)
  · refine { hok with
      committed := ⟨fun _ => Nat.le_refl i, fun _ => rfl⟩
      done := fun _ => hdone
      intact := fun hfalse => by cases hfalse
      behind := fun hfalse => by cases hfalse }
  · refine ⟨fun hle => by omega, fun hle => ?_⟩
    exact h.committed_before hall (h.batch j y hy).canonical (Nat.lt_of_le_of_ne hle hj)
  · rw [StateStore.rollbackPtr_commit, StateStore.version_commit]
    exact hj data hup
  · rw [StateStore.rollbackPtr_commit]
    exact hj m hm hmj hcursor hup

theorem commit_inv [DecidableEq D] {H : Hasher D} {hash : Bytes → D} (h : s.Invariant B)
    (hstep : s.commit B H hash i = some s') : s'.Invariant B := by
  obtain ⟨x, hx, hstep⟩ := Option.bind_eq_some_iff.mp hstep
  obtain ⟨⟨hopen, hall, hstored⟩, hstep⟩ := guard_bind_eq_some.mp hstep
  obtain ⟨diffs, hdiffs, hstep⟩ := Option.bind_eq_some_iff.mp hstep
  obtain ⟨smt, hsmt, heq⟩ := Option.bind_eq_some_iff.mp hstep
  cases heq
  have hok := h.batch i x hx
  have hlast := h.last_lt hx hopen
  have hother : ∀ j y, Function.update s.batches i (some { x with committed := true }) j = some y →
      ∃ z, s.batches j = some z ∧ y.source = z.source ∧ y.restored = z.restored ∧
        (y.committed = false → j ≠ i ∧ z.committed = false) := by
    intro j y hy
    rw [Function.update_apply] at hy
    split at hy
    · next hj =>
      cases hy
      exact ⟨x, hj ▸ hx, rfl, rfl, fun hfalse => by cases hfalse⟩
    · next hj => exact ⟨y, hy, rfl, rfl, fun hyopen => ⟨hj, hyopen⟩⟩
  refine ⟨h.toConsistent.commit hx hopen hall hstored hdiffs smt, fun j y hy r hr => ?_,
    fun j y hy hres hyopen => ?_, fun r hr c hc hlt => ?_⟩
  · obtain ⟨z, hz, hsource, _⟩ := hother j y hy
    exact fun c hc hlt => h.unchained j z hz r (hsource ▸ hr) c hc (Nat.lt_trans hlast hlt)
  · obtain ⟨z, hz, _, hrestored, hzopen⟩ := hother j y hy
    obtain ⟨hj, hzopen⟩ := hzopen hyopen
    have hparent := h.alone j z hz (hrestored ▸ hres) hzopen
    -- nothing is between a restored batch in flight and the last committed block
    have hzok := h.batch j z hz
    have hjlast := h.last_lt hz hzopen
    change i = B.parent j
    rcases Nat.lt_or_gt_of_ne hj with hlt | hgt
    · have := h.committed_before hall hzok.canonical hlt
      omega
    · have := ((hok.canonical.of_le hzok.canonical (Nat.le_of_lt hgt)).of_lt hgt).le
      omega
  · exact h.evicted r hr c hc (Nat.lt_trans hlast hlt)

theorem Consistent.evict (h : s.Consistent B target) (hstep : s.evict r = some s') :
    s'.Consistent B target := by
  have ⟨p, hp, hstep⟩ := Option.bind_eq_some_iff.mp hstep
  have ⟨hcommitted, heq⟩ := guard_bind_eq_some.mp hstep
  cases heq
  refine { h with inMemory := fun r' p' hr' => ?_ }
  dsimp only at hr'
  rw [Function.update_apply] at hr'
  split at hr'
  · cases hr'
  · exact h.inMemory r' p' hr'

theorem evict_inv (h : s.Invariant B) (hstep : s.evict r = some s') : s'.Invariant B := by
  have hnext := h.toConsistent.evict hstep
  have ⟨p, hp, hstep⟩ := Option.bind_eq_some_iff.mp hstep
  have ⟨hcommitted, heq⟩ := guard_bind_eq_some.mp hstep
  cases heq
  have ⟨y, hy, hycommitted⟩ := exists_of_any hcommitted
  have hle := (h.committed_iff hy).mp hycommitted
  refine ⟨hnext, h.unchained, h.alone, fun r' hr' c hc hlt => ?_⟩
  dsimp only at hr'
  rw [Function.update_apply] at hr'
  split at hr'
  · next heq =>
    subst heq
    exact (h.inMemory r' p hp).2.2.2 c hc (Nat.lt_of_le_of_lt hle hlt)
  · exact h.evicted r' hr' c hc hlt

end System

end Vprogs.Scheduler
