import Vprogs.Aggregate.BundleFormation

/-!
What the bundles of a run are made of. The worker's lists are one stretch of the batches
that its drained commands leave: what is gone for good, the retained batches, the bundle
being proved, what it evicted, the queue. An evicted batch is canceled, and so is
everything behind it, so no bundle is formed across a gap.
-/
namespace Vprogs.Aggregate

/-- Empty, or with a receipt that `artifact()` returns. -/
def Upstream.Ready (u : Upstream) (b : ScheduledBatch) : Prop :=
  b.empty = true ∨ u.artifact b = true

theorem Upstream.Ready.later {u u' : Upstream} {b : ScheduledBatch} (h : u.Ready b)
    (hlater : u.Later u') : u'.Ready b := h.imp id (hlater.artifact b)

namespace Worker

/-- The bundle that has left the queue and is not retained yet. -/
def inflight (w : Worker) : List ScheduledBatch :=
  match w.phase with
  | .proving bundle => bundle
  | _ => []

/-- What the worker has read so far in its current attempt. -/
def PhaseOk (u : Upstream) (queued evicted : List ScheduledBatch) : Phase → Prop
  | .waiting front => queued.head? = some front
  | .checking front => queued.head? = some front ∧ (u.Ready front ∨ u.canceled front)
  | .extending take | .forming take => evicted = [] ∧ ∀ b ∈ queued.take take, u.Ready b
  | .confirming take => evicted = [] ∧ (∀ b ∈ queued.take take, u.Ready b) ∧
      ∀ b, queued[take]? = some b → u.Ready b ∨ u.canceled b
  | .panicked => False
  | _ => True

structure Tracks (c : Config) (u : Upstream) (w : Worker) (gone evicted : List ScheduledBatch) :
    Prop where
  drained : w.drained ≤ u.log.length
  chain : replay (u.log.take w.drained) =
    gone ++ (w.retained ++ (w.inflight ++ (evicted ++ w.queued)))
  canceled : ∀ b ∈ evicted, u.canceled b
  retained : ∀ b ∈ w.retained, u.Ready b
  proving : ∀ b ∈ w.inflight, u.Ready b
  unwatched : c.watched = false → w.retained = []
  phase : PhaseOk u w.queued evicted w.phase

/-- The batches that left the queue in a bundle, in the order they did. -/
def bundled (w : Worker) : List ScheduledBatch :=
  (w.formed.filter (·.fromQueue)).flatMap (·.batches)

structure History (u : Upstream) (w : Worker) : Prop where
  drained : ∀ f ∈ w.formed, f.drained ≤ w.drained
  ready : ∀ f ∈ w.formed, ∀ b ∈ f.batches, u.Ready b
  consecutive : ∀ f ∈ w.formed, f.batches <:+: replay (u.log.take f.drained)
  ordered : w.bundled.Pairwise (·.number < ·.number)
  before : ∀ a ∈ w.bundled, ∀ b ∈ w.queued, a.number < b.number
  known : ∀ a ∈ w.bundled, a ∈ batches (u.log.take w.drained)

variable {c : Config} {u u' : Upstream} {w w' : Worker} {gone evicted : List ScheduledBatch}

theorem tracks_new {root tip : Nat} : Tracks c (.new root tip) .new [] [] where
  drained := Nat.le_refl _
  chain := rfl
  canceled := nofun
  retained := nofun
  proving := nofun
  unwatched _ := rfl
  phase := trivial

theorem history_new : History u .new := ⟨nofun, nofun, nofun, .nil, nofun, nofun⟩

/-! ### Steps upstream -/

theorem take_of_later (hlater : u.Later u') {n : Nat} (hn : n ≤ u.log.length) :
    u'.log.take n = u.log.take n := by
  have ⟨rest, hrest⟩ := hlater.log
  rw [← hrest, List.take_append_of_le_length hn]

theorem PhaseOk.later {queued : List ScheduledBatch} {phase : Phase}
    (h : PhaseOk u queued evicted phase) (hlater : u.Later u') : PhaseOk u' queued evicted phase := by
  have hready {b : ScheduledBatch} (hb : u.Ready b ∨ u.canceled b) : u'.Ready b ∨ u'.canceled b :=
    hb.imp (·.later hlater) (hlater.canceled b)
  match phase with
  | .checking _ => exact ⟨h.1, hready h.2⟩
  | .extending _ | .forming _ => exact ⟨h.1, fun b hb => (h.2 b hb).later hlater⟩
  | .confirming _ =>
    exact ⟨h.1, fun b hb => (h.2.1 b hb).later hlater, fun b hb => hready (h.2.2 b hb)⟩
  | .waiting _ => exact h
  | .panicked => exact h
  | .draining | .settling | .reproving _ | .selecting | .evicting | .proving _ | .stopped => trivial

theorem Tracks.later (h : w.Tracks c u gone evicted) (hlater : u.Later u') :
    w.Tracks c u' gone evicted where
  drained := Nat.le_trans h.drained hlater.log.length_le
  chain := by rw [take_of_later hlater h.drained]; exact h.chain
  canceled b hb := hlater.canceled b (h.canceled b hb)
  retained b hb := (h.retained b hb).later hlater
  proving b hb := (h.proving b hb).later hlater
  unwatched := h.unwatched
  phase := h.phase.later hlater

theorem History.later (h : w.History u) (hdrained : w.drained ≤ u.log.length)
    (hlater : u.Later u') : w.History u' where
  drained := h.drained
  ready f hf b hb := (h.ready f hf b hb).later hlater
  consecutive f hf := by
    rw [take_of_later hlater (Nat.le_trans (h.drained f hf) hdrained)]
    exact h.consecutive f hf
  ordered := h.ordered
  before := h.before
  known a ha := by
    rw [take_of_later hlater hdrained]
    exact h.known a ha

/-! ### What the worker's lists have in common -/

theorem Tracks.behind (h : w.Tracks c u gone evicted) (hu : u.Sound) :
    (gone ++ (w.retained ++ (w.inflight ++ (evicted ++ w.queued)))).Pairwise
      (Upstream.Behind u.thresholds) := by
  have hnested : Nested (Upstream.Behind u.thresholds) (u.log.take w.drained) :=
    Nested.of_append (by rw [List.take_append_drop]; exact hu.nested)
  exact h.chain ▸ hnested.pairwise

theorem Tracks.queued_behind (h : w.Tracks c u gone evicted) (hu : u.Sound) :
    (evicted ++ w.queued).Pairwise (Upstream.Behind u.thresholds) := by
  refine List.Pairwise.sublist ?_ (h.behind hu)
  exact (List.sublist_append_right _ _).trans
    ((List.sublist_append_right _ _).trans (List.sublist_append_right _ _))

/-- Behind an evicted batch everything is canceled. -/
theorem Tracks.evicted_eq_nil (h : w.Tracks c u gone evicted) (hu : u.Sound) {front : ScheduledBatch}
    (hfront : w.queued.head? = some front) (hkept : ¬ u.canceled front) : evicted = [] := by
  refine List.eq_nil_iff_forall_not_mem.mpr fun b hb => hkept ?_
  have hbehind := (List.pairwise_append.mp (h.queued_behind hu)).2.2 b hb front
    (List.mem_of_mem_head? hfront)
  exact hbehind.canceled (h.canceled b hb)

theorem Tracks.queued_known (h : w.Tracks c u gone evicted) {b : ScheduledBatch} (hb : b ∈ w.queued) :
    b ∈ batches (u.log.take w.drained) := by
  refine mem_batches_of_replay (h.chain ▸ ?_)
  simp only [List.mem_append]
  exact .inr (.inr (.inr (.inr hb)))

/-! ### Draining -/

theorem Tracks.drainBatch {b : ScheduledBatch} (h : w.Tracks c u gone evicted)
    (hphase : w.phase = .draining) (hnext : u.log[w.drained]? = some (.batch b)) :
    Tracks c u { w with drained := w.drained + 1, queued := w.queued ++ [b] } gone evicted where
  drained := (List.getElem?_eq_some_iff.mp hnext).1
  chain := by
    rw [List.take_add_one, hnext, Option.toList_some, replay_concat, h.chain, Command.apply]
    simp only [List.append_assoc]
    rfl
  canceled := h.canceled
  retained := h.retained
  proving := h.proving
  unwatched := h.unwatched
  phase := by simp only [hphase]; trivial

theorem History.drainBatch {b : ScheduledBatch} (h : w.History u) (hu : u.Sound)
    (hnext : u.log[w.drained]? = some (.batch b)) :
    History u { w with drained := w.drained + 1, queued := w.queued ++ [b] } where
  drained f hf := Nat.le_succ_of_le (h.drained f hf)
  ready := h.ready
  consecutive := h.consecutive
  ordered := h.ordered
  before a ha b' hb' := by
    match List.mem_append.mp hb' with
    | .inl hb' => exact h.before a ha b' hb'
    | .inr hb' =>
      have hnumbered : (batches (u.log.take (w.drained + 1))).Pairwise (·.number < ·.number) :=
        hu.numbered.sublist ((List.take_sublist _ _).filterMap _)
      rw [List.take_add_one, hnext, Option.toList_some, batches_append, List.pairwise_append] at hnumbered
      exact hnumbered.2.2 a (h.known a ha) b' hb'
  known a ha := by
    rw [List.take_add_one, hnext, Option.toList_some, batches_append]
    exact List.mem_append_left _ (h.known a ha)

theorem Tracks.drainRollback {target : Nat} (h : w.Tracks c u gone evicted)
    (hphase : w.phase = .draining) (hnext : u.log[w.drained]? = some (.rollback target)) :
    Tracks c u { w.applyRollback target with drained := w.drained + 1 }
      (gone.filter (·.index ≤ target)) (evicted.filter (·.index ≤ target)) where
  drained := (List.getElem?_eq_some_iff.mp hnext).1
  chain := by
    have hinflight : w.inflight = [] := by simp only [Worker.inflight, hphase]
    rw [List.take_add_one, hnext, Option.toList_some, replay_concat, h.chain, Command.apply, hinflight]
    simp only [List.filter_append, List.filter_nil, Worker.inflight, applyRollback, hphase]
  canceled b hb := h.canceled b (List.mem_of_mem_filter hb)
  retained b hb := h.retained b (List.mem_of_mem_filter hb)
  proving b hb := by simp [Worker.inflight, applyRollback, hphase] at hb
  unwatched hc := by simp [applyRollback, h.unwatched hc]
  phase := by simp only [applyRollback, hphase]; trivial

theorem History.drainRollback {target : Nat} (h : w.History u)
    (hnext : u.log[w.drained]? = some (.rollback target)) :
    History u { w.applyRollback target with drained := w.drained + 1 } where
  drained f hf := Nat.le_succ_of_le (h.drained f hf)
  ready := h.ready
  consecutive := h.consecutive
  ordered := h.ordered
  before a ha b hb := h.before a ha b (List.mem_of_mem_filter hb)
  known a ha := by
    rw [List.take_add_one, hnext, Option.toList_some, batches_append]
    exact List.mem_append_left _ (h.known a ha)

/-! ### Forming a bundle -/

theorem all_ready {bundle : List ScheduledBatch} (h : ∀ b ∈ bundle, u.Ready b) :
    bundle.all (fun b => b.empty || u.artifact b) = true :=
  List.all_eq_true.mpr fun b hb => Bool.or_eq_true _ _ ▸ h b hb

/-- A bundle of ready batches is proved, and the receipts are all there. -/
theorem proveBundle_eq {fromQueue : Bool} {bundle : List ScheduledBatch} {phase : Phase}
    (h : ∀ b ∈ bundle, u.Ready b) : w.proveBundle u fromQueue bundle phase =
      { w with formed := w.formed ++ [⟨fromQueue, w.drained, bundle⟩], phase := phase } := by
  rw [proveBundle, if_pos (all_ready h)]

theorem History.congr (h : w.History u) (hformed : w'.formed = w.formed)
    (hdrained : w'.drained = w.drained) (hqueued : ∀ b ∈ w'.queued, b ∈ w.queued) : w'.History u := by
  have hbundled : w'.bundled = w.bundled := by rw [bundled, hformed, bundled]
  exact ⟨hformed ▸ hdrained ▸ h.drained, hformed ▸ h.ready, hformed ▸ h.consecutive,
    hbundled ▸ h.ordered, fun a ha b hb => h.before a (hbundled ▸ ha) b (hqueued b hb),
    hbundled ▸ hdrained ▸ h.known⟩

section

variable {bundle : List ScheduledBatch}

theorem forall_formed {fromQueue : Bool} {P : Formed → Prop} (h : ∀ f ∈ w.formed, P f)
    (hlast : P ⟨fromQueue, w.drained, bundle⟩) : ∀ f ∈ w.formed ++ [⟨fromQueue, w.drained, bundle⟩], P f :=
  fun f hf => (List.mem_append.mp hf).elim (h f) fun hf => List.mem_singleton.mp hf ▸ hlast

/-- A bundle of retained batches: nothing leaves the queue. -/
theorem History.reform (h : w.History u) (hready : ∀ b ∈ bundle, u.Ready b)
    (hwithin : bundle <:+: replay (u.log.take w.drained)) :
    History u { w with formed := w.formed ++ [⟨false, w.drained, bundle⟩] } := by
  have hbundled : bundled { w with formed := w.formed ++ [⟨false, w.drained, bundle⟩] } =
      w.bundled := by simp [bundled]
  exact ⟨forall_formed h.drained (Nat.le_refl _), forall_formed h.ready hready,
    forall_formed h.consecutive hwithin, hbundled ▸ h.ordered, hbundled ▸ h.before,
    hbundled ▸ h.known⟩

theorem Tracks.retained_within (h : w.Tracks c u gone evicted) (hbundle : bundle <+: w.retained) :
    bundle <:+: replay (u.log.take w.drained) := by
  have ⟨rest, hrest⟩ := hbundle
  rw [h.chain, ← hrest]
  exact ⟨gone, rest ++ (w.inflight ++ (evicted ++ w.queued)), by simp only [List.append_assoc]⟩

theorem Tracks.dropRetained (h : w.Tracks c u gone evicted) (hphase : w.phase = .settling) (n : Nat) :
    Tracks c u { w with retained := w.retained.drop n, changed := false }
      (gone ++ w.retained.take n) evicted where
  drained := h.drained
  chain := by
    rw [h.chain, List.append_assoc, ← List.append_assoc (w.retained.take n), List.take_append_drop]
    rfl
  canceled := h.canceled
  retained b hb := h.retained b (List.mem_of_mem_drop hb)
  proving := h.proving
  unwatched hc := by simp [h.unwatched hc]
  phase := by simp only [hphase]; trivial

theorem Tracks.setPhase (h : w.Tracks c u gone evicted) (phase : Phase)
    (hidle : w.inflight = []) (hphase : PhaseOk u w.queued evicted phase)
    (hquiet : Worker.inflight { w with phase := phase } = []) {formed : List Formed}
    {lastReformedFrom latest : Option Nat} {changed : Bool} :
    Tracks c u { w with
      formed := formed, phase := phase, lastReformedFrom := lastReformedFrom,
      latest := latest, changed := changed } gone evicted where
  drained := h.drained
  chain := by
    have hsame : Worker.inflight { w with
      formed := formed, phase := phase, lastReformedFrom := lastReformedFrom,
      latest := latest, changed := changed } = [] := hquiet
    rw [hsame, h.chain, hidle]
  canceled := h.canceled
  retained := h.retained
  proving b hb := by
    have hsame : b ∈ Worker.inflight { w with phase := phase } := hb
    rw [hquiet] at hsame
    cases hsame
  unwatched := h.unwatched
  phase := hphase

end

/-! ### One step of the worker -/

def Inv (c : Config) (u : Upstream) (w : Worker) : Prop :=
  (∃ gone evicted, w.Tracks c u gone evicted) ∧ w.History u

section

variable (hu : u.Sound) (h : w.Inv c u) (hstep : w.advance c u = some w')

include h

/-- A step that changes the phase only. -/
theorem Inv.setPhase {phase : Phase} (hidle : w.inflight = [])
    (hphase : ∀ {gone evicted}, w.Tracks c u gone evicted → PhaseOk u w.queued evicted phase)
    (hquiet : inflight { w with phase := phase } = []) : Inv c u { w with phase := phase } :=
  have ⟨⟨gone, evicted, ht⟩, hh⟩ := h
  ⟨⟨gone, evicted, ht.setPhase phase hidle (hphase ht) hquiet⟩, hh.congr rfl rfl fun _ hb => hb⟩

theorem Inv.reaggregate (hphase : w.phase = .settling) (latest : Option Nat) :
    Inv c u ({ w with changed := false }.reaggregateSuperseded c u latest) := by
  have ⟨⟨gone, evicted, ht⟩, hh⟩ := h
  have hidle : w.inflight = [] := by simp only [inflight, hphase]
  unfold reaggregateSuperseded
  split
  case h_1 => exact ⟨⟨_, _, ht.setPhase .selecting hidle trivial rfl⟩, hh.congr rfl rfl fun _ hb => hb⟩
  case h_2 boundary =>
    dsimp only
    split
    case h_1 => exact ⟨⟨_, _, ht.setPhase .selecting hidle trivial rfl⟩, hh.congr rfl rfl fun _ hb => hb⟩
    case h_2 drain hdrain =>
      have ht' := ht.dropRetained hphase drain
      have hidle' : inflight { w with retained := w.retained.drop drain, changed := false } = [] := hidle
      split
      case h_1 => exact ⟨⟨_, _, ht'.setPhase .selecting hidle' trivial rfl⟩, hh.congr rfl rfl fun _ hb => hb⟩
      case h_2 first rest hsuffix =>
        split
        case isTrue =>
          exact ⟨⟨_, _, ht'.setPhase .selecting hidle' trivial rfl⟩, hh.congr rfl rfl fun _ hb => hb⟩
        case isFalse =>
          have hfront : first :: rest <+: w.retained.drop drain := hsuffix ▸ List.take_prefix _ _
          have hready : ∀ b ∈ first :: rest, u.Ready b :=
            fun b hb => ht'.retained b (hfront.subset hb)
          rw [proveBundle_eq hready]
          refine ⟨⟨_, _, ht'.setPhase (.reproving (first :: rest)) hidle' trivial rfl⟩, ?_⟩
          exact (hh.reform hready (ht'.retained_within hfront)).congr rfl rfl fun _ hb => hb

theorem Inv.form {take : Nat} (hu : u.Sound) (hphase : w.phase = .forming take) :
    Inv c u ({ w with queued := w.queued.drop take }.proveBundle u true (w.queued.take take)
      (.proving (w.queued.take take))) := by
  have ⟨⟨gone, evicted, ht⟩, hh⟩ := h
  have hready := ht.phase
  simp only [hphase] at hready
  have ⟨hnil, hready⟩ := hready
  have hidle : w.inflight = [] := by simp only [inflight, hphase]
  have hchain := ht.chain
  rw [hidle, hnil, List.nil_append, List.nil_append] at hchain
  rw [proveBundle_eq hready]
  have hsplit : (w.queued.take take ++ w.queued.drop take).Pairwise (Upstream.Behind u.thresholds) := by
    have hqueued := ht.queued_behind hu
    rwa [hnil, List.nil_append, ← List.take_append_drop take w.queued] at hqueued
  have hbundled (phase : Phase) : bundled { w with
      queued := w.queued.drop take
      formed := w.formed ++ [⟨true, w.drained, w.queued.take take⟩]
      phase := phase } = w.bundled ++ w.queued.take take := by simp [bundled]
  have hqueued {b : ScheduledBatch} (hb : b ∈ w.queued.take take) : b ∈ w.queued :=
    List.mem_of_mem_take hb
  refine ⟨⟨gone, [], ?_⟩, ?_⟩
  · constructor
    case drained => exact ht.drained
    case chain =>
      rw [hchain]
      simp only [inflight, List.nil_append, List.take_append_drop]
    case canceled => exact nofun
    case retained => exact ht.retained
    case proving => exact hready
    case unwatched => exact ht.unwatched
    case phase => trivial
  · constructor
    case drained => exact forall_formed hh.drained (Nat.le_refl _)
    case ready => exact forall_formed hh.ready hready
    case consecutive =>
      refine forall_formed hh.consecutive ⟨gone ++ w.retained, w.queued.drop take, ?_⟩
      rw [hchain, List.append_assoc, List.take_append_drop, List.append_assoc]
    case ordered =>
      rw [hbundled]
      refine List.pairwise_append.mpr ⟨hh.ordered, ?_, fun a ha b hb => hh.before a ha b (hqueued hb)⟩
      exact (List.pairwise_append.mp hsplit).1.imp (·.number)
    case before =>
      rw [hbundled]
      intro a ha b hb
      match List.mem_append.mp ha with
      | .inl ha => exact hh.before a ha b (List.mem_of_mem_drop hb)
      | .inr ha => exact ((List.pairwise_append.mp hsplit).2.2 a ha b hb).number
    case known =>
      rw [hbundled]
      exact fun a ha => (List.mem_append.mp ha).elim (hh.known a) fun ha => ht.queued_known (hqueued ha)

theorem Inv.drain (hu : u.Sound) (hphase : w.phase = .draining)
    (hstep : w.advance c u = some w') : Inv c u w' := by
  have ⟨⟨gone, evicted, ht⟩, hh⟩ := h
  have hidle : w.inflight = [] := by simp only [inflight, hphase]
  simp only [advance, hphase] at hstep
  split at hstep <;> cases hstep
  case h_1 b hnext => exact ⟨⟨_, _, hphase ▸ ht.drainBatch hphase hnext⟩, hphase ▸ hh.drainBatch hu hnext⟩
  case h_2 target hnext =>
    exact ⟨⟨_, _, ht.drainRollback hphase hnext⟩, hh.drainRollback hnext⟩
  case h_3 => exact h.setPhase hidle (fun _ => trivial) rfl

/-- A front that is neither ready nor canceled keeps the worker waiting. -/
theorem Inv.wait {front : ScheduledBatch} (hu : u.Sound) (hphase : w.phase = .waiting front)
    (hstep : w.advance c u = some w') : Inv c u w' := by
  have hidle : w.inflight = [] := by simp only [inflight, hphase]
  simp only [advance, hphase] at hstep
  split at hstep <;> cases hstep
  case isTrue hopen =>
    refine h.setPhase hidle (fun ht => ?_) rfl
    have hfront := ht.phase
    simp only [hphase] at hfront
    refine ⟨hfront, hopen.elim (fun hopen => ?_) .inr⟩
    match hu.opened front hopen with
    | .inl hempty => exact .inl (.inl hempty)
    | .inr (.inl hartifact) => exact .inl (.inr hartifact)
    | .inr (.inr hcanceled) => exact .inr hcanceled

theorem Inv.check {front : ScheduledBatch} (hu : u.Sound) (hphase : w.phase = .checking front)
    (hstep : w.advance c u = some w') : Inv c u w' := by
  have hidle : w.inflight = [] := by simp only [inflight, hphase]
  simp only [advance, hphase] at hstep
  split at hstep <;> cases hstep
  case isTrue => exact h.setPhase hidle (fun _ => trivial) rfl
  case isFalse hkept =>
    refine h.setPhase hidle (fun ht => ?_) rfl
    have hfront := ht.phase
    simp only [hphase] at hfront
    refine ⟨ht.evicted_eq_nil hu hfront.1 hkept, fun b hb => ?_⟩
    match hqueued : w.queued with
    | [] => simp [hqueued] at hb
    | first :: rest =>
      rw [hqueued] at hb hfront
      cases hfront.1
      have hfirst : b = front := by simpa using hb
      exact hfirst ▸ hfront.2.resolve_right hkept

theorem Inv.evict (hphase : w.phase = .evicting) (hstep : w.advance c u = some w') : Inv c u w' := by
  have ⟨⟨gone, evicted, ht⟩, hh⟩ := h
  have hidle : w.inflight = [] := by simp only [inflight, hphase]
  simp only [advance, hphase] at hstep
  split at hstep
  case h_1 => cases hstep; exact h.setPhase hidle (fun _ => trivial) rfl
  case h_2 front rest hqueued =>
    split at hstep <;> cases hstep
    case isTrue hcanceled =>
      refine ⟨⟨gone, evicted ++ [front], { ht with
        chain := ?_
        canceled := ?_
        proving := nofun
        phase := trivial }⟩, hh.congr rfl rfl fun b hb => hqueued ▸ List.mem_cons_of_mem _ hb⟩
      · rw [ht.chain, hidle, hqueued, List.append_cons]
        rfl
      · exact fun b hb => (List.mem_append.mp hb).elim (ht.canceled b)
          fun hb => List.mem_singleton.mp hb ▸ hcanceled
    case isFalse => exact h.setPhase hidle (fun _ => trivial) rfl

theorem Inv.extend {take : Nat} (hu : u.Sound) (hphase : w.phase = .extending take)
    (hstep : w.advance c u = some w') : Inv c u w' := by
  have hidle : w.inflight = [] := by simp only [inflight, hphase]
  have hread {gone evicted : List ScheduledBatch} (ht : w.Tracks c u gone evicted) :
      evicted = [] ∧ ∀ b ∈ w.queued.take take, u.Ready b := by
    have hread := ht.phase
    rw [hphase] at hread
    exact hread
  simp only [advance, hphase] at hstep
  split at hstep
  case h_1 b hb =>
    split at hstep <;> cases hstep
    case isTrue hopen =>
      refine h.setPhase hidle (fun ht => ⟨(hread ht).1, (hread ht).2, fun b' hb' => ?_⟩) rfl
      cases hb.symm.trans hb'
      match hu.opened b hopen.2 with
      | .inl hempty => exact .inl (.inl hempty)
      | .inr (.inl hartifact) => exact .inl (.inr hartifact)
      | .inr (.inr hcanceled) => exact .inr hcanceled
    case isFalse => exact h.setPhase hidle hread rfl
  case h_2 => cases hstep; exact h.setPhase hidle hread rfl

theorem Inv.confirm {take : Nat} (hphase : w.phase = .confirming take)
    (hstep : w.advance c u = some w') : Inv c u w' := by
  have hidle : w.inflight = [] := by simp only [inflight, hphase]
  have hread {gone evicted : List ScheduledBatch} (ht : w.Tracks c u gone evicted) :
      evicted = [] ∧ (∀ b ∈ w.queued.take take, u.Ready b) ∧
        ∀ b, w.queued[take]? = some b → u.Ready b ∨ u.canceled b := by
    have hread := ht.phase
    rw [hphase] at hread
    exact hread
  simp only [advance, hphase] at hstep
  split at hstep
  case h_1 b hb =>
    split at hstep <;> cases hstep
    case isTrue => exact h.setPhase hidle (fun ht => ⟨(hread ht).1, (hread ht).2.1⟩) rfl
    case isFalse hkept =>
      refine h.setPhase hidle (fun ht => ⟨(hread ht).1, fun b' hb' => ?_⟩) rfl
      rw [List.take_add_one, hb] at hb'
      match List.mem_append.mp hb' with
      | .inl hb' => exact (hread ht).2.1 b' hb'
      | .inr hb' =>
        cases List.mem_singleton.mp hb'
        exact ((hread ht).2.2 b hb).resolve_right hkept
  case h_2 => cases hstep

theorem Inv.finish {bundle : List ScheduledBatch} (hphase : w.phase = .proving bundle)
    (hstep : w.advance c u = some w') : Inv c u w' := by
  have ⟨⟨gone, evicted, ht⟩, hh⟩ := h
  have hbundle : w.inflight = bundle := by simp only [inflight, hphase]
  have hchain := ht.chain
  rw [hbundle] at hchain
  simp only [advance, hphase] at hstep
  cases hstep
  refine ⟨?_, hh.congr rfl rfl fun _ hb => hb⟩
  cases hwatched : c.watched with
  | true =>
    refine ⟨gone, evicted, { ht with
      chain := ?_, retained := ?_, proving := nofun, unwatched := ?_, phase := trivial }⟩
    · rw [hchain, if_pos rfl]
      simp only [inflight, List.nil_append, List.append_assoc]
    · rw [if_pos rfl]
      exact fun b hb => (List.mem_append.mp hb).elim (ht.retained b)
        fun hb => ht.proving b (hbundle ▸ hb)
    · exact fun hc => nomatch hwatched.symm.trans hc
  | false =>
    have hnil := ht.unwatched hwatched
    refine ⟨gone ++ bundle, evicted, { ht with
      chain := ?_, retained := ht.retained, proving := nofun, unwatched := fun _ => hnil,
      phase := trivial }⟩
    rw [hchain, hnil]
    simp only [inflight, List.nil_append, List.append_assoc, Bool.false_eq_true, if_false]

end

theorem Inv.step (hu : u.Sound) (h : w.Inv c u) (hstep : w.advance c u = some w') : Inv c u w' := by
  match hphase : w.phase with
  | .draining => exact h.drain hu hphase hstep
  | .settling =>
    simp only [advance, hphase] at hstep
    split at hstep <;> cases hstep
    case isTrue => exact hphase ▸ h.reaggregate hphase w.latest
    case isFalse => exact h.setPhase (by simp only [inflight, hphase]) (fun _ => trivial) rfl
  | .reproving suffix =>
    simp only [advance, hphase] at hstep
    cases hstep
    have ⟨⟨gone, evicted, ht⟩, hh⟩ := h
    exact ⟨⟨gone, evicted, ht.setPhase .selecting (by simp only [inflight, hphase]) trivial rfl⟩,
      hh.congr rfl rfl fun _ hb => hb⟩
  | .selecting =>
    have hidle : w.inflight = [] := by simp only [inflight, hphase]
    simp only [advance, hphase] at hstep
    split at hstep <;> cases hstep
    case h_1 => exact h.setPhase hidle (fun _ => trivial) rfl
    case h_2 hqueued => exact h.setPhase hidle (fun _ => by rw [hqueued]; rfl) rfl
  | .waiting front => exact h.wait hu hphase hstep
  | .checking front => exact h.check hu hphase hstep
  | .evicting => exact h.evict hphase hstep
  | .extending take => exact h.extend hu hphase hstep
  | .confirming take => exact h.confirm hphase hstep
  | .forming take =>
    simp only [advance, hphase] at hstep
    split at hstep <;> cases hstep
    case isTrue => exact h.setPhase (by simp only [inflight, hphase]) (fun _ => trivial) rfl
    case isFalse => exact hphase ▸ h.form hu hphase
  | .proving bundle => exact h.finish hphase hstep
  | .panicked | .stopped => simp only [advance, hphase] at hstep; cases hstep

end Worker

/-! ### Whole runs -/

namespace Prover

variable {c : Config} {s s' : Prover}

/-- A worker that was shut down keeps its history only: the bundle it was proving is
dropped. -/
def Inv (c : Config) (s : Prover) : Prop :=
  s.upstream.Sound ∧ s.worker.History s.upstream ∧ s.worker.drained ≤ s.upstream.log.length ∧
    (s.worker.phase = .stopped ∨ ∃ gone evicted, s.worker.Tracks c s.upstream gone evicted)

theorem inv_new {root tip : Nat} (h : root ≤ tip) : Inv c (new root tip) :=
  ⟨Upstream.sound_new h, Worker.history_new, Nat.le_refl _, .inr ⟨[], [], Worker.tracks_new⟩⟩

theorem Inv.step {e : Event} (h : Inv c s) (hstep : step c s e = some s') : Inv c s' := by
  have ⟨hu, hh, hdrained, hw⟩ := h
  match e with
  | .upstream event =>
    have ⟨u, hu', heq⟩ := Option.map_eq_some_iff.mp hstep
    cases heq
    have ⟨hsound, hlater⟩ := hu.step hu'
    exact ⟨hsound, hh.later hdrained hlater, Nat.le_trans hdrained hlater.log.length_le,
      hw.imp id fun ⟨gone, evicted, ht⟩ => ⟨gone, evicted, ht.later hlater⟩⟩
  | .settlement latest =>
    simp only [Prover.step] at hstep
    split at hstep <;> cases hstep
    exact ⟨hu, hh.congr rfl rfl fun _ hb => hb, hdrained,
      hw.imp id fun ⟨gone, evicted, ht⟩ => ⟨gone, evicted, { ht with }⟩⟩
  | .advance =>
    have ⟨w, hw', heq⟩ := Option.map_eq_some_iff.mp hstep
    cases heq
    match hw with
    | .inl hstopped => simp only [Worker.advance, hstopped] at hw'; cases hw'
    | .inr htracks =>
      have ⟨⟨gone, evicted, ht⟩, hh⟩ := Worker.Inv.step hu ⟨htracks, hh⟩ hw'
      exact ⟨hu, hh, ht.drained, .inr ⟨gone, evicted, ht⟩⟩
  | .shutdown =>
    simp only [Prover.step] at hstep
    split at hstep <;> cases hstep
    exact ⟨hu, hh.congr rfl rfl fun _ hb => hb, hdrained, .inl rfl⟩

theorem Inv.not_panicked (h : Inv c s) : s.worker.phase ≠ .panicked := by
  intro hpanicked
  match h.2.2.2 with
  | .inl hstopped => exact nomatch hpanicked.symm.trans hstopped
  | .inr ⟨_, _, ht⟩ =>
    have hphase := ht.phase
    rw [hpanicked] at hphase
    exact hphase

/-- In every run: no bundle misses a receipt, every bundle is a stretch of the batches that
the commands drained so far leave, with ascending indices and nothing that one of them
rolled back, and no batch leaves the queue twice. -/
theorem bundles_sound (c : Config) {root tip : Nat} (h : root ≤ tip) {events : List Event}
    (hrun : Runs.run (step c) (new root tip) events = some s) :
    s.worker.phase ≠ .panicked ∧
      (∀ f ∈ s.worker.formed,
        (∀ b ∈ f.batches, b.empty = true ∨ s.upstream.artifact b = true) ∧
        f.batches <:+: replay (s.upstream.log.take f.drained) ∧
        f.batches.Pairwise (·.index < ·.index) ∧
        ∀ before target after, s.upstream.log.take f.drained = before ++ .rollback target :: after →
          ∀ b ∈ f.batches, .batch b ∈ before → b.index ≤ target) ∧
      s.worker.bundled.Pairwise (·.number < ·.number) := by
  have hinv : Inv c s := Runs.invariant_all Inv.step (inv_new h) hrun
  have ⟨hu, hh, hdrained, _⟩ := hinv
  refine ⟨hinv.not_panicked, fun f hf => ⟨hh.ready f hf, hh.consecutive f hf, ?_, ?_⟩, hh.ordered⟩
  · have hnested : Nested (Upstream.Behind s.upstream.thresholds) (s.upstream.log.take f.drained) :=
      Nested.of_append (by rw [List.take_append_drop]; exact hu.nested)
    exact (hnested.pairwise.sublist (hh.consecutive f hf).sublist).imp (·.index)
  · intro before target after hlog b hb hbefore
    have hchain := (hh.consecutive f hf).subset hb
    rw [hlog] at hchain
    refine index_le_of_replay hchain fun hafter => ?_
    have hnumbered : (batches (s.upstream.log.take f.drained)).Pairwise (·.number < ·.number) :=
      hu.numbered.sublist ((List.take_sublist _ _).filterMap _)
    rw [hlog, batches_append, List.pairwise_append] at hnumbered
    have hmem : b ∈ batches before := List.mem_filterMap.mpr ⟨_, hbefore, rfl⟩
    exact Nat.lt_irrefl _ (hnumbered.2.2 b hmem b hafter)

/-- Batches 1, 2 and 3 are queued; 1 and 2 are proved, a rollback to 2 cancels 3 and its
latch is forced open while the worker extends its bundle. Later a settlement through
block 11 leaves batch 2 to be formed again. -/
def forcedOpen : List Event :=
  let b (n : Nat) : ScheduledBatch := ⟨n, n + 1, ⟨0, 0⟩, false, n + 11⟩
  [.upstream (.submit 1 false 11), .upstream (.submit 2 false 12), .upstream (.submit 3 false 13)] ++
    List.replicate 6 .advance ++
    [.upstream (.storeArtifact (b 0)), .upstream (.openArtifact (b 0)),
      .upstream (.storeArtifact (b 1)), .upstream (.openArtifact (b 1))] ++
    List.replicate 4 .advance ++
    [.upstream (.beginRollback 2), .upstream (.visit true), .upstream (.forceOpen (b 2))] ++
    List.replicate 5 .advance ++
    [.upstream .pushRollback, .settlement (some 11)] ++ List.replicate 3 .advance

theorem bundles_sound_forcedOpen : ∃ s,
    Runs.run (step ⟨1, 8, true⟩) (new 0 0) forcedOpen = some s ∧
      s.worker.formed.map (fun f => (f.fromQueue, f.batches.map (·.index))) =
        [(true, [1, 2]), (false, [2])] ∧ s.worker.phase ≠ .panicked := by
  have hformed : ((Runs.run (step ⟨1, 8, true⟩) (new 0 0) forcedOpen).map fun s =>
      s.worker.formed.map fun f => (f.fromQueue, f.batches.map (·.index))) =
        some [(true, [1, 2]), (false, [2])] := by decide +kernel
  have ⟨s, hrun, heq⟩ := Option.map_eq_some_iff.mp hformed
  exact ⟨s, hrun, heq, (bundles_sound ⟨1, 8, true⟩ (Nat.le_refl 0) hrun).1⟩

end Prover

end Vprogs.Aggregate
