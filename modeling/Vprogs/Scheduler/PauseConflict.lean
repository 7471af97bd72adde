import Vprogs.Scheduler.PauseHandshake

/-!
Both directions of the handshake. A pause that succeeds keeps every pass at or below
its ceiling until it is lifted. A pause that fails is answered by a pass above its
ceiling, except when the worker took its announced pass back and fell asleep before
the failing pause lifted the ceiling, which it does without a wake-up.
-/
namespace Vprogs.Scheduler.PruningWorker
variable {s s' : PruningWorker}

/-! ### What a successful pause keeps away -/

/-- A pause in force is the one the ceiling holds, and no pass is past it. -/
structure Guarded (s : PruningWorker) : Prop where
  ceiling : ∀ c ∈ s.held, s.pauseCeiling = c
  kept : s.Kept
  fresh : ∀ c, s.caller = .pausing c ∨ s.caller = .failing c → s.held = []
  stored : ∀ c, s.caller = .pausing c → s.pauseCeiling = c

theorem stepWorker_frame (hstep : s.stepWorker = some s') :
    s'.pauseCeiling = s.pauseCeiling ∧ s'.caller = s.caller ∧ s'.held = s.held := by
  unfold PruningWorker.stepWorker at hstep
  match hw : s.worker with
  | .thresholded _ _ | .announced _ _ _ | .waiting =>
    simp only [hw] at hstep
    split at hstep <;> cases hstep <;> exact ⟨rfl, rfl, rfl⟩
  | .start | .rooted _ | .ranged _ _ | .aborting _ _ _ | .pruning _ _ | .deleting _ _ =>
    simp only [hw, Option.some.injEq] at hstep
    subst hstep
    exact ⟨rfl, rfl, rfl⟩

/-- A pass starts only below the ceiling. -/
theorem executing_of_stepWorker {c : Nat} (hstep : s.stepWorker = some s')
    (h : s'.Executing c) : s.Executing c ∨ c + 1 < s.pauseCeiling := by
  unfold PruningWorker.stepWorker at hstep
  match hw : s.worker with
  | .announced lower upper prev =>
    simp only [hw] at hstep
    split at hstep <;> cases hstep
    case isTrue => exact h.elim
    case isFalse hlt =>
      change c < upper at h
      exact .inr (by omega)
  | .pruning lower upper =>
    simp only [hw, Option.some.injEq] at hstep
    subst hstep
    exact .inl (by rw [Executing, hw]; exact h)
  | .start | .rooted _ | .ranged _ _ | .aborting _ _ _ | .deleting _ _ =>
    simp only [hw, Option.some.injEq] at hstep
    subst hstep
    exact h.elim
  | .thresholded _ _ | .waiting =>
    simp only [hw] at hstep
    split at hstep <;> cases hstep <;> exact h.elim

theorem Guarded.stepWorker (h : s.Guarded) (hstep : s.stepWorker = some s') : s'.Guarded := by
  have ⟨hceiling, hcaller, hheld⟩ := stepWorker_frame hstep
  constructor
  case ceiling => exact fun c hc => hceiling.trans (h.ceiling c (hheld ▸ hc))
  case kept =>
    intro c hc hexecuting
    have hc : c ∈ s.held := hheld ▸ hc
    have hat := h.ceiling c hc
    match executing_of_stepWorker hstep hexecuting with
    | .inl hbefore => exact h.kept c hc hbefore
    | .inr hbelow => omega
  case fresh => exact fun c hc => hheld.trans (h.fresh c (hcaller ▸ hc))
  case stored => exact fun c hc => hceiling.trans (h.stored c (hcaller ▸ hc))

/-- A pass past the handshake shows in the cursor. -/
theorem Sound.lt_cursor_of_executing {c : Nat} (h : s.Sound) (hc : s.Executing c) :
    c < s.pruningCursor := by
  have hranged := h.ranged
  match hw : s.worker with
  | .pruning lower upper =>
    simp only [Ranged, Executing, hw] at hranged hc
    omega
  | .deleting lower upper =>
    simp only [Ranged, Executing, hw] at hranged hc
    omega
  | .start | .rooted _ | .thresholded _ _ | .ranged _ _ | .announced _ _ _ | .aborting _ _ _
  | .waiting => simp [Executing, hw] at hc

theorem Guarded.step {e : PruningEvent} (h : s.Guarded) (hsound : s.Sound) (he : s.Unnested e)
    (hstep : s.step e = some s') : s'.Guarded := by
  cases e with
  | worker => exact h.stepWorker hstep
  | pause ceiling =>
    have hheld : s.held = [] := he
    simp only [PruningWorker.step] at hstep
    split at hstep <;> cases hstep
    refine ⟨fun c hc => ?_, fun c hc => ?_, fun _ _ => hheld, ?_⟩
    · rw [hheld] at hc
      cases hc
    · rw [hheld] at hc
      cases hc
    · rintro c ⟨⟩
      rfl
  | unpause =>
    simp only [PruningWorker.step] at hstep
    split at hstep <;> cases hstep
    exact ⟨by simp, by simp [Kept], fun _ _ => rfl, by simp⟩
  | setThreshold threshold =>
    simp only [PruningWorker.step] at hstep
    split at hstep <;> cases hstep
    have hcaller : ∀ c, (if s.pruningThreshold < threshold then CallerPoint.notifying else .idle) ≠
        .pausing c ∧ (if s.pruningThreshold < threshold then CallerPoint.notifying else .idle) ≠
        .failing c := fun c => by split <;> simp
    exact ⟨h.ceiling, h.kept, fun c hc => (hc.elim (hcaller c).1 (hcaller c).2).elim,
      fun c hc => ((hcaller c).1 hc).elim⟩
  | caller =>
    simp only [PruningWorker.step, stepCaller] at hstep
    cases hc : s.caller with
    | idle => simp [hc] at hstep
    | pausing ceiling =>
      have hheld := h.fresh ceiling (.inl hc)
      simp only [hc] at hstep
      split at hstep <;> cases hstep
      · next hcursor =>
        refine ⟨fun c hmem => ?_, fun c hmem hexecuting => ?_, by simp, by simp⟩
        · rw [hheld, List.mem_singleton] at hmem
          rw [hmem]
          exact h.stored ceiling hc
        · rw [hheld, List.mem_singleton] at hmem
          have := hsound.lt_cursor_of_executing hexecuting
          omega
      · exact ⟨h.ceiling, h.kept, fun _ _ => hheld, by simp⟩
    | failing ceiling =>
      have hheld := h.fresh ceiling (.inr hc)
      simp only [hc, Option.some.injEq] at hstep
      subst hstep
      have hnone : ∀ c ∈ s.held, unconstrained = c := fun c hmem => by
        rw [hheld] at hmem
        cases hmem
      exact ⟨hnone, h.kept, by simp, by simp⟩
    | notifying =>
      simp only [hc, Option.some.injEq] at hstep
      subst hstep
      exact ⟨h.ceiling, h.kept, by simp, by simp⟩

/-! ### What the worker does when it is left alone -/

variable {c lower upper prev : Nat}

theorem Later.of_step (hstep : s.stepWorker = some s') (h : s'.Later c) : s.Later c := by
  have ⟨n, t, hrun, ht⟩ := h
  exact ⟨n + 1, t, Runs.run_cons.mpr ⟨s', hstep, hrun⟩, ht⟩

theorem Later.of_executing (h : s.Executing c) : s.Later c :=
  ⟨0, s, rfl, h⟩

/-- The cells as a failed pause leaves them to a worker that can prune above `c`. -/
structure Released (s : PruningWorker) (c : Nat) : Prop where
  ceiling : s.pauseCeiling = unconstrained
  threshold_le : s.pruningThreshold ≤ unconstrained
  eligible : s.Eligible c

theorem Released.move (h : s.Released c) (point : WorkerPoint) (cursor : Nat) (permit : Bool)
    (executed : List Nat) :
    { s with
      pruningCursor := cursor
      permit := permit
      executed := executed
      worker := point }.Released c :=
  ⟨h.ceiling, h.threshold_le, h.eligible.pos, h.eligible.below, h.eligible.above⟩

theorem Released.later_start (h : s.Released c) (hw : s.worker = .start) : s.Later c := by
  have ⟨hpos, hbelow, habove⟩ := h.eligible
  have hmin : min s.pruningThreshold unconstrained = s.pruningThreshold :=
    Nat.min_eq_left h.threshold_le
  have hwork : s.root ≤ s.pruningThreshold - 1 := by omega
  have hopen : s.pruningThreshold - 1 < unconstrained := by
    have := h.threshold_le
    omega
  refine ⟨5, { s with
    pruningCursor := s.pruningThreshold - 1
    worker := .pruning s.root (s.pruningThreshold - 1) }, ?_, ?_⟩
  · simp [Runs.run, List.replicate, PruningWorker.step, PruningWorker.stepWorker, hw, h.ceiling,
      hmin, hwork, hpos, hopen]
  · change c < s.pruningThreshold - 1
    omega

theorem Released.later_deleting (h : s.Released c) (hw : s.worker = .deleting lower upper) : s.Later c := by
  have hstep : s.stepWorker = some { s with executed := upper :: s.executed, worker := .start } := by
    simp only [PruningWorker.stepWorker, hw]
  exact .of_step hstep (later_start (h.move _ _ _ _) rfl)

/-- A pass that ends at or below `c` leaves the next one to reach above it. -/
theorem Released.later_pruning (h : s.Released c) (hw : s.worker = .pruning lower upper) : s.Later c := by
  by_cases hexecuting : c < upper
  · exact .of_executing (by rwa [Executing, hw])
  · have hstep : s.stepWorker =
        some { s with root := upper + 1, worker := .deleting lower upper } := by
      simp only [PruningWorker.stepWorker, hw]
    have habove := h.eligible.above
    have hbelow : upper + 1 < s.pruningThreshold := by omega
    have hnext : { s with root := upper + 1, worker := .deleting lower upper }.Released c :=
      ⟨h.ceiling, h.threshold_le, Nat.succ_pos upper, hbelow, habove⟩
    exact .of_step hstep (hnext.later_deleting rfl)

theorem Released.later_announced (h : s.Released c) (hw : s.worker = .announced lower upper prev)
    (hlt : upper < s.pruningThreshold) : s.Later c := by
  have hopen : ¬s.pauseCeiling ≤ upper := by
    have := h.threshold_le
    rw [h.ceiling]
    omega
  have hstep : s.stepWorker = some { s with worker := .pruning lower upper } := by
    simp only [PruningWorker.stepWorker, hw, if_neg hopen]
  exact .of_step hstep (later_pruning (h.move _ _ _ _) rfl)

theorem Released.later_ranged (h : s.Released c) (hw : s.worker = .ranged lower upper)
    (hlt : upper < s.pruningThreshold) : s.Later c := by
  have hstep : s.stepWorker = some { s with
      pruningCursor := upper
      worker := .announced lower upper s.pruningCursor } := by
    simp only [PruningWorker.stepWorker, hw]
  exact .of_step hstep (later_announced (h.move _ _ _ _) rfl hlt)

theorem Released.later_waiting (h : s.Released c) (hw : s.worker = .waiting)
    (hpermit : s.permit = true) : s.Later c := by
  have hstep : s.stepWorker = some { s with permit := false, worker := .start } := by
    simp only [PruningWorker.stepWorker, hw, if_pos hpermit]
  exact .of_step hstep (later_start (h.move _ _ _ _) rfl)

/-- A threshold in hand is worth a pass, or a wake-up for the newer one is stored. -/
theorem Released.later_thresholded {threshold : Nat} (h : s.Released c)
    (hw : s.worker = .thresholded s.root threshold) (hle : threshold ≤ s.pruningThreshold)
    (hcurrent : threshold = s.pruningThreshold ∨ s.permit = true) : s.Later c := by
  have hmax := h.threshold_le
  have hmin : min threshold s.pauseCeiling = threshold := by
    rw [h.ceiling]
    omega
  by_cases hwork : s.root ≤ threshold - 1 ∧ 0 < s.root
  · have hstep : s.stepWorker = some { s with worker := .ranged s.root (threshold - 1) } := by
      simp only [PruningWorker.stepWorker, hw, hmin, if_pos hwork]
    have hlt : threshold - 1 < s.pruningThreshold := by omega
    exact .of_step hstep (later_ranged (h.move _ _ _ _) rfl hlt)
  · have hstep : s.stepWorker = some { s with worker := .waiting } := by
      simp only [PruningWorker.stepWorker, hw, hmin, if_neg hwork]
    have hpermit : s.permit = true := by
      refine hcurrent.resolve_left fun hsame => hwork ?_
      have := h.eligible.below
      exact ⟨by omega, h.eligible.pos⟩
    exact .of_step hstep (later_waiting (h.move _ _ _ _) rfl hpermit)

/-- A worker that is not asleep finds the lifted ceiling. -/
theorem Released.later (h : s.Released c) (hranged : s.Ranged) (hcaller : s.caller = .idle)
    (hawake : ¬s.Asleep) : s.Later c := by
  cases hw : s.worker with
  | start => exact h.later_start hw
  | rooted lower =>
    simp only [Ranged, hw] at hranged
    have hstep : s.stepWorker =
        some { s with worker := .thresholded s.root s.pruningThreshold } := by
      simp only [PruningWorker.stepWorker, hw, hranged]
    exact .of_step hstep (later_thresholded (h.move _ _ _ _) rfl (Nat.le_refl _) (.inl rfl))
  | thresholded lower threshold =>
    simp only [Ranged, hw] at hranged
    obtain ⟨hlower, hle, hcurrent⟩ := hranged
    rw [hcaller] at hcurrent
    exact h.later_thresholded (hlower ▸ hw) hle (hcurrent.imp_right fun hor =>
      hor.resolve_right (by simp))
  | ranged lower upper =>
    simp only [Ranged, hw] at hranged
    exact h.later_ranged hw hranged.2.2.2
  | announced lower upper prev =>
    simp only [Ranged, hw] at hranged
    exact h.later_announced hw hranged.2.2.2.1
  | aborting lower upper prev =>
    have hstep : s.stepWorker = some { s with pruningCursor := prev, worker := .start } := by
      simp only [PruningWorker.stepWorker, hw]
    exact .of_step hstep (later_start (h.move _ _ _ _) rfl)
  | pruning lower upper => exact h.later_pruning hw
  | deleting lower upper => exact h.later_deleting hw
  | waiting => exact h.later_waiting hw (by simpa [Asleep, hw] using hawake)

/-- A worker that sleeps without a permit takes no step. -/
theorem Asleep.not_later (h : s.Asleep) : ¬s.Later c := by
  rintro ⟨n, s', hrun, hexecuting⟩
  match n with
  | 0 =>
    cases hrun
    simp [Executing, h.1] at hexecuting
  | n + 1 =>
    obtain ⟨m, hm, _⟩ := Runs.run_cons.mp hrun
    simp [PruningWorker.step, PruningWorker.stepWorker, h.1, h.2] at hm

/-- A failed pause is answered by a pass, unless the announced pass was taken back and
the worker fell asleep before the ceiling was lifted again. -/
theorem Sound.goesOn_iff (h : s.Sound) (hc : s.caller = .failing c) (hstep : s.step .caller = some s') :
    s'.GoesOn c ↔ ¬(s.Asleep ∧ s.pruningCursor ≤ c) := by
  simp only [PruningWorker.step, stepCaller, hc, Option.some.injEq] at hstep
  subst hstep
  constructor
  · rintro hgoes ⟨hasleep, hle⟩
    have hsettled : s.settled = s.pruningCursor := by simp [PruningWorker.settled, hasleep.1]
    rcases hgoes with ⟨upper, hmem, habove⟩ | hexecuting | hlater
    · have := (h.executed upper hmem).2
      omega
    · simp [Executing, hasleep.1] at hexecuting
    · have hstays : { s with pauseCeiling := unconstrained, caller := .idle }.Asleep := hasleep
      exact hstays.not_later hlater
  · intro hawake
    rcases h.failing c hc with hdone | hexecuting | he
    · exact .inl hdone
    · exact .inr (.inl hexecuting)
    · by_cases hasleep : s.Asleep
      · have hlt : c < s.pruningCursor := by
          by_contra hle
          exact hawake ⟨hasleep, Nat.le_of_not_lt hle⟩
        have hsettled : s.settled = s.pruningCursor := by simp [PruningWorker.settled, hasleep.1]
        rcases hsettled ▸ h.settled with hzero | hmem | hall
        · omega
        · exact .inl ⟨_, hmem, hlt⟩
        · exact .inr (.inl (hall c hlt))
      · have hranged : { s with pauseCeiling := unconstrained, caller := .idle }.Ranged :=
          h.ranged.call (Nat.le_refl _) (.inl rfl)
            fun hor => .inl (hor.resolve_right (by simp [hc]))
        exact .inr (.inr (Released.later ⟨rfl, h.threshold_le, he.pos, he.below, he.above⟩
          hranged rfl hasleep))

/-- In every interleaving: as long as pauses are lifted before the next one, no pass
executes above a ceiling in force; and a pause that returns `false` is answered by a
pass above its ceiling exactly when the worker is not asleep behind a cursor that it
has taken back. -/
theorem pause_handshake {root : Nat} {executed : List Nat} {events : List PruningEvent}
    {s : PruningWorker} (hnew : Resumed root executed)
    (hrun : Runs.run step (new root executed) events = some s) :
    (Runs.Along step Unnested (new root executed) events → s.Kept) ∧
    ∀ c s', s.caller = .failing c → s.step .caller = some s' →
      (s'.GoesOn c ↔ ¬(s.Asleep ∧ s.pruningCursor ≤ c)) := by
  have hsound : s.Sound := Runs.invariant_all Sound.step (sound_new hnew) hrun
  refine ⟨fun hunnested => ?_, fun c s' hc hstep => hsound.goesOn_iff hc hstep⟩
  have hboth : s.Sound ∧ s.Guarded :=
    Runs.invariant (I := fun s => s.Sound ∧ s.Guarded)
      (fun h he hstep => ⟨h.1.step hstep, h.2.step h.1 he hstep⟩)
      ⟨sound_new hnew, nofun, nofun, nofun, nofun⟩ hunnested hrun
  exact hboth.2.kept

/-- A pass to batch 9 is announced when `pause(1)` sets its ceiling; the worker takes it
back and falls asleep before the pause lifts the ceiling again. -/
def takenBack : List PruningEvent :=
  [.setThreshold 10, .caller] ++ List.replicate 4 .worker ++ [.pause 1, .caller] ++
    List.replicate 9 .worker

theorem pause_handshake_takenBack :
    ∃ s, Runs.run step (new 1 []) takenBack = some s ∧ s.Kept ∧ s.caller = .failing 1 ∧
      s.Asleep := by
  have hresumed : Resumed 1 [] := ⟨by decide, nofun, .inl (Nat.le_refl 1)⟩
  have ⟨s, hrun, hs⟩ : ∃ s, Runs.run step (new 1 []) takenBack = some s ∧
      s.caller = .failing 1 ∧ s.Asleep := by
    have h : ((Runs.run step (new 1 []) takenBack).map fun s =>
        decide (s.caller = .failing 1 ∧ s.Asleep)) = some true := by decide +kernel
    have ⟨s, hrun, hs⟩ := Option.map_eq_some_iff.mp h
    exact ⟨s, hrun, of_decide_eq_true hs⟩
  have halong : Runs.Along step Unnested (new 1 []) takenBack := by decide +kernel
  exact ⟨s, hrun, (pause_handshake hresumed hrun).1 halong, hs⟩

/-- The pause returns `false`, nothing has been pruned, and the worker sleeps on. -/
theorem pause_conflict_unanswered :
    ∃ s s', Runs.run step (new 1 []) takenBack = some s ∧ s.caller = .failing 1 ∧
      s.step .caller = some s' ∧ ¬s'.GoesOn 1 := by
  have h : ((Runs.run step (new 1 []) takenBack).bind fun s => (s.step .caller).map fun s' =>
      decide (s.caller = .failing 1 ∧ s'.executed = [] ∧ s'.Asleep)) = some true := by
    decide +kernel
  have ⟨s, hrun, hs⟩ := Option.bind_eq_some_iff.mp h
  have ⟨s', hstep, hs'⟩ := Option.map_eq_some_iff.mp hs
  have ⟨hcaller, hexecuted, hasleep⟩ := of_decide_eq_true hs'
  refine ⟨s, s', hrun, hcaller, hstep, ?_⟩
  rintro (⟨upper, hmem, _⟩ | hexecuting | hlater)
  · rw [hexecuted] at hmem
    cases hmem
  · simp [Executing, hasleep.1] at hexecuting
  · exact hasleep.not_later hlater

end Vprogs.Scheduler.PruningWorker
