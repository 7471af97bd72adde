import Vprogs.Runs
import Mathlib.Order.Lattice.Nat

/-!
The storage manager's write path, one step per access of a shared cell. A caller of
`submit` bumps the length, pushes its command and wakes the worker only if it finds it
parked. The worker drains the queue into write batches and parks on an empty queue; on
shutdown it returns without committing the open batch.
-/
namespace Vprogs.Storage

/-- The batching threshold, and which commands ask for a flush of their own. -/
structure WriteConfig (W : Type) where
  batchSize : Nat
  flushNow : W → Bool

/-- Where the worker thread is in `run` or `park`. -/
inductive WritePoint (W : Type) where
  | looping
  | checking
  | popping
  /-- A command is popped and the length still counts it. -/
  | counting (cmd : W)
  | executing (cmd : W)
  | parking
  /-- In `park`, with `is_parked` set. -/
  | flagged
  | idling
  | parked
  | unparking
  | stopped
  | panicked

namespace WritePoint
variable {W : Type}

def inHand : WritePoint W → List W
  | counting cmd | executing cmd => [cmd]
  | _ => []

def uncounted : WritePoint W → Nat
  | counting _ => 1
  | _ => 0

/-- The thread runs and has no command in its hand. -/
def Between : WritePoint W → Prop
  | counting _ | executing _ | stopped | panicked => False
  | _ => True

theorem Between.spec {point : WritePoint W} (h : point.Between) :
    point.inHand = [] ∧ point.uncounted = 0 ∧ point ≠ stopped ∧ point ≠ panicked := by
  cases point with
  | counting _ | executing _ | stopped | panicked => exact h.elim
  | _ => exact ⟨rfl, rfl, by simp, by simp⟩

end WritePoint

/-- The state `WriteManager::new` starts from has every default. -/
structure WriteWorker (W : Type) where
  queue : List W := []
  approxLen : Nat := 0
  isParked : Bool := false
  isShutdown : Bool := false
  /-- The parker's token, left by `unpark`. -/
  token : Bool := false
  worker : WritePoint W := .looping
  /-- Commands executed into the open write batch. -/
  batchCmds : List W := []
  /-- Callers of `submit` before their push, with the length they counted. -/
  pushing : List (W × Nat) := []
  /-- How many callers have yet to load `is_parked`. -/
  looking : Nat := 0
  /-- How many callers, of `submit` or `shutdown`, have yet to unpark the worker. -/
  waking : Nat := 0
  /-- Commands in the order of their pushes; not in the source. -/
  pushed : List W := []
  /-- The write batches committed so far; not in the source. -/
  batches : List (List W) := []
  /-- The commands of the write batch that was open at shutdown; not in the source. -/
  dropped : List W := []

inductive WriteEvent (W : Type) where
  | submit (cmd : W)
  | push (caller : Nat)
  | look
  | wake
  | shutdown
  /-- The worker's next access; `elapsed` where it reads the clock or waits for it. -/
  | worker (elapsed : Bool)

namespace WriteWorker
variable {W : Type} (cfg : WriteConfig W) (s : WriteWorker W)

def flush (point : WritePoint W) : WriteWorker W :=
  { s with batches := s.batches ++ [s.batchCmds], batchCmds := [], worker := point }

def stepWorker (elapsed : Bool) : Option (WriteWorker W) :=
  match s.worker with
  | .looping =>
    -- `run` returns and drops the open batch.
    if s.isShutdown then some { s with dropped := s.batchCmds, batchCmds := [], worker := .stopped }
    else some { s with worker := .checking }
  | .checking =>
    if s.batchCmds ≠ [] ∧ (cfg.batchSize ≤ s.batchCmds.length ∨ elapsed) then some (s.flush .popping)
    else some { s with worker := .popping }
  | .popping =>
    match s.queue with
    | [] => some { s with worker := .parking }
    | cmd :: queue => some { s with queue := queue, worker := .counting cmd }
  | .counting cmd =>
    -- `fetch_sub(1) - 1` underflows on a length of zero.
    if s.approxLen = 0 then some { s with worker := .panicked }
    else some { s with approxLen := s.approxLen - 1, worker := .executing cmd }
  | .executing cmd =>
    let s' := { s with batchCmds := s.batchCmds ++ [cmd], worker := .looping }
    some (if cfg.flushNow cmd then s'.flush .looping else s')
  | .parking => some { s with isParked := true, worker := .flagged }
  | .flagged => some { s with worker := if s.isShutdown then .unparking else .idling }
  | .idling => some { s with worker := if s.approxLen = 0 then .parked else .unparking }
  | .parked =>
    if s.token then some { s with token := false, worker := .unparking }
    else if elapsed then some { s with worker := .unparking }
    else none
  | .unparking => some { s with isParked := false, worker := .looping }
  | .stopped | .panicked => none

def step : WriteEvent W → Option (WriteWorker W)
  | .submit cmd => some { s with
      approxLen := s.approxLen + 1
      pushing := s.pushing ++ [(cmd, s.approxLen + 1)] }
  | .push caller => s.pushing[caller]?.map fun p =>
      { s with
        queue := s.queue ++ [p.1]
        pushed := s.pushed ++ [p.1]
        pushing := s.pushing.eraseIdx caller
        looking := s.looking + if cfg.flushNow p.1 ∨ cfg.batchSize ≤ p.2 then 1 else 0 }
  | .look =>
    if s.looking = 0 then none
    else some { s with looking := s.looking - 1, waking := s.waking + if s.isParked then 1 else 0 }
  | .wake => if s.waking = 0 then none else some { s with waking := s.waking - 1, token := true }
  | .shutdown => some { s with isShutdown := true, waking := s.waking + 1 }
  | .worker elapsed => s.stepWorker cfg elapsed

/-- A batch within the threshold that no command but the last asks to flush. -/
structure Batch (cmds : List W) : Prop where
  nonempty : cmds ≠ []
  bounded : cmds.length ≤ max 1 cfg.batchSize
  delayed : ∀ cmd ∈ cmds.dropLast, cfg.flushNow cmd = false

/-- What the commands pushed so far have become. -/
structure Recorded : Prop where
  conserved : s.pushed = s.batches.flatten ++ s.dropped ++ s.batchCmds ++ s.worker.inHand ++ s.queue
  counted : s.approxLen = s.queue.length + s.worker.uncounted + s.pushing.length
  delayed : ∀ cmd ∈ s.dropped ++ s.batchCmds, cfg.flushNow cmd = false
  bounded : (s.dropped ++ s.batchCmds).length ≤ max 1 cfg.batchSize
  room : s.worker = .popping ∨ s.worker.inHand ≠ [] → s.batchCmds.length < max 1 cfg.batchSize
  closed : ∀ cmds ∈ s.batches, Batch cfg cmds
  kept : s.worker ≠ .stopped → s.dropped = []
  stopped : s.worker = .stopped → s.isShutdown ∧ s.batchCmds = []
  running : s.worker ≠ .panicked

/-- While the worker sleeps without a token and nobody is about to wake it, nothing is due. -/
structure Rested : Prop where
  flag : s.worker = .flagged ∨ s.worker = .idling ∨ s.worker = .parked → s.isParked
  shutdown : s.worker = .idling ∨ s.worker = .parked → s.token = false → s.waking = 0 →
    s.isShutdown = false
  patient : s.worker = .parked → s.token = false → s.looking + s.waking = 0 →
    ∀ cmd ∈ s.queue, cfg.flushNow cmd = false
  full : s.worker = .parked → s.token = false → s.looking + s.waking = 0 →
    ∀ len, max 1 cfg.batchSize ≤ len → len ≤ s.approxLen → ∃ p ∈ s.pushing, p.2 = len

variable {cfg s} {s' : WriteWorker W} {events : List (WriteEvent W)}

namespace Recorded

/-- The worker moves on with nothing in its hand. -/
theorem moved (hs : s.Recorded cfg) (point : WritePoint W) (hfrom : s.worker.Between)
    (hto : point.Between) (hroom : point = .popping → s.batchCmds.length < max 1 cfg.batchSize) :
    { s with worker := point }.Recorded cfg := by
  obtain ⟨hhand, hcount, hlive, -⟩ := hfrom.spec
  obtain ⟨hhand', hcount', hstopped, hrunning⟩ := hto.spec
  exact { hs with
    conserved := by rw [hhand', ← hhand]; exact hs.conserved
    counted := by rw [hcount', ← hcount]; exact hs.counted
    room := fun h => h.elim hroom fun hne => absurd hhand' hne
    kept := fun _ => hs.kept hlive
    stopped := fun h => absurd h hstopped
    running := hrunning }

/-- The open batch and what the worker has in its hand become a write batch. -/
theorem flushed (hs : s.Recorded cfg) (point : WritePoint W) (hlive : s.worker ≠ .stopped)
    (hcount : s.worker.uncounted = 0) (hbatch : Batch cfg (s.batchCmds ++ s.worker.inHand))
    (hto : point.Between) :
    { s with
      batches := s.batches ++ [s.batchCmds ++ s.worker.inHand]
      batchCmds := []
      worker := point }.Recorded cfg := by
  have hkept := hs.kept hlive
  obtain ⟨hhand, hcount', hstopped, hrunning⟩ := hto.spec
  exact {
    conserved := by rw [hs.conserved, hhand, hkept]; simp
    counted := by rw [hcount', ← hcount]; exact hs.counted
    delayed := by simp [hkept]
    bounded := by simp [hkept]
    room := by simp
    closed := by
      intro cmds hcmds
      rcases List.mem_append.mp hcmds with hold | hnew
      · exact hs.closed cmds hold
      · rw [List.mem_singleton.mp hnew]
        exact hbatch
    kept := fun _ => hkept
    stopped := fun h => absurd h hstopped
    running := hrunning }

/-- The worker returns at a shutdown and drops the open batch. -/
theorem halted (hs : s.Recorded cfg) (hw : s.worker = .looping) (hshutdown : s.isShutdown) :
    { s with dropped := s.batchCmds, batchCmds := [], worker := .stopped }.Recorded cfg := by
  have hkept : s.dropped = [] := hs.kept (by simp [hw])
  exact { hs with
    conserved := by simpa [hw, hkept, WritePoint.inHand] using hs.conserved
    counted := by simpa [hw, WritePoint.uncounted] using hs.counted
    delayed := by simpa [hkept] using hs.delayed
    bounded := by simpa [hkept] using hs.bounded
    room := by simp [WritePoint.inHand]
    kept := fun h => absurd rfl h
    stopped := fun _ => ⟨hshutdown, rfl⟩
    running := by simp }

/-- The worker adds the command in its hand to the open batch. -/
theorem collected (hs : s.Recorded cfg) {cmd : W} (hw : s.worker = .executing cmd)
    (hflush : cfg.flushNow cmd = false) :
    { s with batchCmds := s.batchCmds ++ [cmd], worker := .looping }.Recorded cfg := by
  have hkept : s.dropped = [] := hs.kept (by simp [hw])
  have hroom := hs.room (.inr (by simp [hw, WritePoint.inHand]))
  exact { hs with
    conserved := by simpa [hw, hkept, WritePoint.inHand] using hs.conserved
    counted := by simpa [hw, WritePoint.uncounted] using hs.counted
    delayed := by
      intro c hc
      rw [← List.append_assoc] at hc
      rcases List.mem_append.mp hc with hold | hnew
      · exact hs.delayed c hold
      · rwa [List.mem_singleton.mp hnew]
    bounded := by rw [hkept, List.nil_append, List.length_append]; exact hroom
    room := by simp [WritePoint.inHand]
    kept := fun _ => hkept
    stopped := by simp
    running := by simp }

theorem stepWorker (hs : s.Recorded cfg) {elapsed : Bool}
    (hstep : s.stepWorker cfg elapsed = some s') : s'.Recorded cfg := by
  have hconserved := hs.conserved
  have hcounted := hs.counted
  cases hw : s.worker with
  | stopped | panicked => simp [WriteWorker.stepWorker, hw] at hstep
  | looping =>
    simp only [WriteWorker.stepWorker, hw] at hstep
    split at hstep
    · next hshutdown =>
      cases hstep
      exact hs.halted hw hshutdown
    · cases hstep
      exact hs.moved _ (by rw [hw]; trivial) trivial (by simp)
  | checking =>
    have hkept : s.dropped = [] := hs.kept (by simp [hw])
    simp only [WriteWorker.stepWorker, hw] at hstep
    split at hstep
    · next hflush =>
      cases hstep
      have hbatch : Batch cfg s.batchCmds :=
        ⟨hflush.1, by simpa [hkept] using hs.bounded,
          fun cmd hcmd => hs.delayed cmd (List.mem_append_right _ (List.mem_of_mem_dropLast hcmd))⟩
      simpa [flush, hw, WritePoint.inHand] using
        hs.flushed .popping (by simp [hw]) (by simp [hw, WritePoint.uncounted])
          (by simpa [hw, WritePoint.inHand] using hbatch) trivial
    · next hflush =>
      cases hstep
      -- Without a flush the batch is not full, so there is room for the next command.
      have hroom : s.batchCmds.length < max 1 cfg.batchSize := by
        rcases s.batchCmds.eq_nil_or_concat with hnil | ⟨_, _, hne⟩
        · simp [hnil]
        · have hlt : s.batchCmds.length < cfg.batchSize :=
            Nat.lt_of_not_le fun hle => hflush ⟨by simp [hne], .inl hle⟩
          omega
      exact hs.moved _ (by rw [hw]; trivial) trivial fun _ => hroom
  | popping =>
    simp only [WriteWorker.stepWorker, hw] at hstep
    split at hstep
    · cases hstep
      exact hs.moved _ (by rw [hw]; trivial) trivial (by simp)
    · next cmd queue hqueue =>
      cases hstep
      exact { hs with
        conserved := by simpa [hw, hqueue, WritePoint.inHand] using hconserved
        counted := by simpa [hw, hqueue, WritePoint.uncounted] using hcounted
        room := fun _ => hs.room (.inl hw)
        kept := fun _ => hs.kept (by simp [hw])
        stopped := by simp
        running := by simp }
  | counting cmd =>
    simp only [WriteWorker.stepWorker, hw] at hstep
    rw [hw, WritePoint.uncounted] at hcounted
    split at hstep
    · omega
    · cases hstep
      exact { hs with
        conserved := by simpa [hw, WritePoint.inHand] using hconserved
        counted := by simp only [WritePoint.uncounted]; omega
        room := fun _ => hs.room (.inr (by simp [hw, WritePoint.inHand]))
        kept := fun _ => hs.kept (by simp [hw])
        stopped := by simp
        running := by simp }
  | executing cmd =>
    simp only [WriteWorker.stepWorker, hw] at hstep
    cases hstep
    split
    · have hroom := hs.room (.inr (by simp [hw, WritePoint.inHand]))
      have hbatch : Batch cfg (s.batchCmds ++ [cmd]) :=
        ⟨by simp, by rw [List.length_append]; exact hroom,
          fun c hc => hs.delayed c (List.mem_append_right _ (by simpa using hc))⟩
      simpa [flush, hw, WritePoint.inHand] using
        hs.flushed .looping (by simp [hw]) (by simp [hw, WritePoint.uncounted])
          (by simpa [hw, WritePoint.inHand] using hbatch) trivial
    · next hflush =>
      exact hs.collected hw (Bool.eq_false_iff.mpr hflush)
  | parking =>
    simp only [WriteWorker.stepWorker, hw] at hstep
    cases hstep
    exact { hs.moved .flagged (by rw [hw]; trivial) trivial (by simp) with }
  | unparking =>
    simp only [WriteWorker.stepWorker, hw] at hstep
    cases hstep
    exact { hs.moved .looping (by rw [hw]; trivial) trivial (by simp) with }
  | flagged | idling =>
    simp only [WriteWorker.stepWorker, hw] at hstep
    cases hstep
    split <;> exact hs.moved _ (by rw [hw]; trivial) (by trivial) (by simp)
  | parked =>
    simp only [WriteWorker.stepWorker, hw] at hstep
    split at hstep
    · cases hstep
      exact { hs.moved .unparking (by rw [hw]; trivial) trivial (by simp) with }
    · cases (Option.ite_none_right_eq_some.mp hstep).2
      exact hs.moved _ (by rw [hw]; trivial) (by trivial) (by simp)

theorem step (hs : s.Recorded cfg) {event : WriteEvent W} (hstep : s.step cfg event = some s') :
    s'.Recorded cfg := by
  cases event with
  | worker elapsed => exact hs.stepWorker hstep
  | push caller =>
    obtain ⟨p, hp, rfl⟩ := Option.map_eq_some_iff.mp hstep
    have hcaller := (List.getElem?_eq_some_iff.mp hp).1
    have hcounted := hs.counted
    refine { hs with conserved := by simp [hs.conserved], counted := ?_ }
    simp only [List.length_append, List.length_singleton, List.length_eraseIdx_of_lt hcaller]
    omega
  | submit cmd =>
    cases hstep
    exact { hs with counted := by rw [hs.counted, List.length_append]; rfl }
  | shutdown =>
    cases hstep
    exact { hs with stopped := fun hw => ⟨rfl, (hs.stopped hw).2⟩ }
  | look | wake =>
    cases (Option.ite_none_left_eq_some.mp hstep).2
    exact { hs with }

end Recorded

namespace Rested

theorem of_awake (hflagged : s.worker ≠ .flagged) (hidling : s.worker ≠ .idling)
    (hparked : s.worker ≠ .parked) : s.Rested cfg where
  flag h := by simp [hflagged, hidling, hparked] at h
  shutdown h := by simp [hidling, hparked] at h
  patient h := absurd h hparked
  full h := absurd h hparked

theorem stepWorker (hrest : s.Rested cfg) (hs : s.Recorded cfg) {elapsed : Bool}
    (hstep : s.stepWorker cfg elapsed = some s') : s'.Rested cfg := by
  cases hw : s.worker with
  | stopped | panicked => simp [WriteWorker.stepWorker, hw] at hstep
  | looping | checking | popping | counting cmd =>
    simp only [WriteWorker.stepWorker, hw] at hstep
    split at hstep <;> cases hstep <;>
      exact of_awake (by simp [flush]) (by simp [flush]) (by simp [flush])
  | executing cmd =>
    simp only [WriteWorker.stepWorker, hw] at hstep
    cases hstep
    split <;> exact of_awake (by simp [flush]) (by simp [flush]) (by simp [flush])
  | parking =>
    simp only [WriteWorker.stepWorker, hw] at hstep
    cases hstep
    exact ⟨fun _ => rfl, by simp, by simp, by simp⟩
  | flagged =>
    simp only [WriteWorker.stepWorker, hw] at hstep
    cases hstep
    split
    · exact of_awake (by simp) (by simp) (by simp)
    · next hup => exact ⟨fun _ => hrest.flag (.inl hw), fun _ _ _ => by simpa using hup, by simp, by simp⟩
  | idling =>
    simp only [WriteWorker.stepWorker, hw] at hstep
    cases hstep
    split
    · next hempty =>
      have hcounted := hs.counted
      -- A length of zero says that the queue is empty and that nobody is pushing.
      have hqueue : s.queue = [] := List.length_eq_zero_iff.mp (by omega)
      exact {
        flag := fun _ => hrest.flag (.inr (.inl hw))
        shutdown := fun _ => hrest.shutdown (.inl hw)
        patient := fun _ _ _ => by simp [hqueue]
        full := fun _ _ _ len hlen hle => by
          have hle : len ≤ s.approxLen := hle
          omega }
    · exact of_awake (by simp) (by simp) (by simp)
  | parked =>
    simp only [WriteWorker.stepWorker, hw] at hstep
    split at hstep
    · cases hstep
      exact of_awake (by simp) (by simp) (by simp)
    · cases (Option.ite_none_right_eq_some.mp hstep).2
      exact of_awake (by simp) (by simp) (by simp)
  | unparking =>
    simp only [WriteWorker.stepWorker, hw] at hstep
    cases hstep
    exact of_awake (by simp) (by simp) (by simp)

theorem step (hrest : s.Rested cfg) (hs : s.Recorded cfg) {event : WriteEvent W}
    (hstep : s.step cfg event = some s') : s'.Rested cfg := by
  cases event with
  | worker elapsed => exact hrest.stepWorker hs hstep
  | push caller =>
    obtain ⟨p, hp, rfl⟩ := Option.map_eq_some_iff.mp hstep
    -- A caller that does not stay to look asks for no flush and counted less than a batch.
    have hstays (hdue : (s.looking + if cfg.flushNow p.1 ∨ cfg.batchSize ≤ p.2 then 1 else 0) + s.waking = 0) :
        ¬(cfg.flushNow p.1 ∨ cfg.batchSize ≤ p.2) ∧ s.looking + s.waking = 0 := by
      split at hdue
      · omega
      · exact ⟨‹_›, hdue⟩
    refine ⟨hrest.flag, hrest.shutdown, fun hw ht hdue cmd hcmd => ?_, fun hw ht hdue len hlen hle => ?_⟩
    · obtain ⟨hleaves, hnone⟩ := hstays hdue
      rcases List.mem_append.mp hcmd with hold | hnew
      · exact hrest.patient hw ht hnone cmd hold
      · rw [List.mem_singleton.mp hnew]
        exact Bool.eq_false_iff.mpr fun hflush => hleaves (.inl hflush)
    · obtain ⟨hleaves, hnone⟩ := hstays hdue
      obtain ⟨q, hq, hcount⟩ := hrest.full hw ht hnone len hlen hle
      obtain ⟨i, hi⟩ := List.mem_iff_getElem?.mp hq
      refine ⟨q, List.mem_eraseIdx_iff_getElem?.mpr ⟨i, ?_, hi⟩, hcount⟩
      rintro rfl
      cases hp.symm.trans hi
      exact hleaves (.inr (by omega))
  | submit cmd =>
    cases hstep
    refine ⟨hrest.flag, hrest.shutdown, hrest.patient, fun hw ht hdue len hlen hle => ?_⟩
    rcases Nat.lt_or_ge s.approxLen len with hlt | hge
    · exact ⟨(cmd, s.approxLen + 1), by simp, Nat.le_antisymm hlt hle⟩
    · obtain ⟨p, hp, hlen⟩ := hrest.full hw ht hdue len hlen hge
      exact ⟨p, List.mem_append_left _ hp, hlen⟩
  | shutdown =>
    cases hstep
    exact ⟨hrest.flag, fun _ _ hnone => absurd hnone (by simp), fun _ _ hnone => absurd hnone (by simp),
      fun _ _ hnone => absurd hnone (by simp)⟩
  | look =>
    cases (Option.ite_none_left_eq_some.mp hstep).2
    -- Whoever looks at a sleeping worker finds it parked and goes on to wake it.
    have hwakes (hw : s.worker = .parked) :
        ¬ s.looking - 1 + (s.waking + if s.isParked then 1 else 0) = 0 := by
      rw [hrest.flag (.inr (.inr hw)), if_pos rfl]
      omega
    exact ⟨hrest.flag, fun hw ht hnone => hrest.shutdown hw ht (Nat.eq_zero_of_add_eq_zero_right hnone),
      fun hw _ hnone => absurd hnone (hwakes hw), fun hw _ hnone => absurd hnone (hwakes hw)⟩
  | wake =>
    cases (Option.ite_none_left_eq_some.mp hstep).2
    exact ⟨hrest.flag, fun _ ht => absurd ht (by simp), fun _ ht => absurd ht (by simp),
      fun _ ht => absurd ht (by simp)⟩

end Rested

theorem inv_run (hrun : Runs.run (step cfg) {} events = some s) : s.Recorded cfg ∧ s.Rested cfg :=
  Runs.invariant_all (I := fun s => s.Recorded cfg ∧ s.Rested cfg)
    (fun hs hstep => ⟨hs.1.step hstep, hs.2.step hs.1 hstep⟩)
    ⟨by constructor <;> simp [WritePoint.inHand, WritePoint.uncounted], by constructor <;> simp⟩ hrun

/-- After a stop nothing is committed any more, whatever is still pushed. -/
theorem run_of_stopped {more : List (WriteEvent W)} (hrun : Runs.run (step cfg) s more = some s')
    (hstopped : s.worker = .stopped) :
    s'.worker = .stopped ∧ s'.batches = s.batches ∧ s'.dropped = s.dropped ∧ s.queue <+: s'.queue := by
  refine Runs.invariant_all (I := fun t => t.worker = .stopped ∧ t.batches = s.batches ∧
    t.dropped = s.dropped ∧ s.queue <+: t.queue) (fun {t event t'} ht hstep => ?_)
    ⟨hstopped, rfl, rfl, List.prefix_rfl⟩ hrun
  obtain ⟨hw, hbatches, hdropped, hqueue⟩ := ht
  cases event with
  | worker elapsed => simp [step, stepWorker, hw] at hstep
  | push caller =>
    obtain ⟨p, -, rfl⟩ := Option.map_eq_some_iff.mp hstep
    exact ⟨hw, hbatches, hdropped, hqueue.trans (List.prefix_append ..)⟩
  | submit cmd | shutdown =>
    cases hstep
    exact ⟨hw, hbatches, hdropped, hqueue⟩
  | look | wake =>
    cases (Option.ite_none_left_eq_some.mp hstep).2
    exact ⟨hw, hbatches, hdropped, hqueue⟩

/-- Every command pushed is in exactly one place, and they are committed in the order of their
pushes; the length never underflows. A stop drops the open batch, which holds no command that
asks for a flush, and leaves the queue as it is; nothing is dropped before. -/
theorem pushed_eq_batches_append (hrun : Runs.run (step cfg) {} events = some s) :
    s.pushed = s.batches.flatten ++ s.dropped ++ s.batchCmds ++ s.worker.inHand ++ s.queue ∧
      (∀ cmds ∈ s.batches, Batch cfg cmds) ∧
      (∀ cmd ∈ s.dropped ++ s.batchCmds, cfg.flushNow cmd = false) ∧
      (s.dropped ++ s.batchCmds).length ≤ max 1 cfg.batchSize ∧
      (s.worker ≠ .stopped → s.dropped = []) ∧
      (s.worker = .stopped → s.pushed = s.batches.flatten ++ s.dropped ++ s.queue ∧
        ∀ more s', Runs.run (step cfg) s more = some s' →
          s'.worker = .stopped ∧ s'.batches = s.batches ∧ s'.dropped = s.dropped ∧ s.queue <+: s'.queue) ∧
      s.worker ≠ .panicked := by
  obtain ⟨hs, -⟩ := inv_run hrun
  refine ⟨hs.conserved, hs.closed, hs.delayed, hs.bounded, hs.kept, fun hstopped => ⟨?_, ?_⟩, hs.running⟩
  · have hconserved := hs.conserved
    simpa [hstopped, (hs.stopped hstopped).2, WritePoint.inHand] using hconserved
  · intro more s' hmore
    exact run_of_stopped hmore hstopped

/-- The manager shuts down with one command in the open batch and one still queued. -/
def earlyStop : List (WriteEvent Bool) :=
  [.submit false, .push 0] ++ .replicate 5 (.worker false) ++
    [.submit true, .push 0, .shutdown, .worker false]

theorem earlyStop_drops : ∃ s, Runs.run (step ⟨2, id⟩) {} earlyStop = some s ∧
    [false, true] = s.batches.flatten ++ s.dropped ++ s.queue ∧ s.dropped = [false] ∧
    ∀ more s', Runs.run (step ⟨2, id⟩) s more = some s' → s'.batches = [] ∧ s'.dropped = [false] := by
  have hrun : Runs.run (step ⟨2, id⟩) {} earlyStop = some _ := rfl
  obtain ⟨-, -, -, -, -, hstop, -⟩ := pushed_eq_batches_append hrun
  refine ⟨_, hrun, (hstop rfl).1, rfl, fun more s' hmore => ?_⟩
  obtain ⟨-, hbatches, hdropped, -⟩ := (hstop rfl).2 more s' hmore
  exact ⟨hbatches, hdropped⟩

/-- A command to flush reaches a sleeping worker. -/
def lateFlush : List (WriteEvent Bool) := .replicate 6 (.worker false) ++ [.submit true, .push 0]

/-- No wakeup is lost: a worker that sleeps although a shutdown, a flush or a full batch is
due has a caller on the way to it, who will find it parked. -/
theorem parked_of_due (hrun : Runs.run (step cfg) {} events = some s)
    (hparked : s.worker = .parked) (htoken : s.token = false)
    (hdue : s.isShutdown ∨ (∃ cmd ∈ s.queue, cfg.flushNow cmd) ∨ max 1 cfg.batchSize ≤ s.queue.length) :
    s.isParked ∧ 0 < s.looking + s.waking := by
  obtain ⟨hs, hrest⟩ := inv_run hrun
  refine ⟨hrest.flag (.inr (.inr hparked)), Nat.pos_of_ne_zero fun hnone => ?_⟩
  rcases hdue with hshutdown | ⟨cmd, hcmd, hflush⟩ | hfull
  · rw [hrest.shutdown (.inr hparked) htoken (by omega)] at hshutdown
    cases hshutdown
  · rw [hrest.patient hparked htoken hnone cmd hcmd] at hflush
    cases hflush
  · -- Every length from the batch size up belongs to a caller that has not pushed yet.
    have hsub : Finset.Icc (max 1 cfg.batchSize) s.approxLen ⊆ (s.pushing.map Prod.snd).toFinset := by
      intro len hlen
      obtain ⟨hle, hge⟩ := Finset.mem_Icc.mp hlen
      obtain ⟨p, hp, rfl⟩ := hrest.full hparked htoken hnone len hle hge
      exact List.mem_toFinset.mpr (List.mem_map_of_mem hp)
    have hcard := (Finset.card_le_card hsub).trans (List.toFinset_card_le _)
    rw [Nat.card_Icc, List.length_map] at hcard
    have hcounted := hs.counted
    omega

theorem lateFlush_woken : ∃ s, Runs.run (step ⟨2, id⟩) {} lateFlush = some s ∧ s.worker = .parked ∧
    s.isParked ∧ 0 < s.looking + s.waking := by
  have hrun : Runs.run (step ⟨2, id⟩) {} lateFlush = some _ := rfl
  exact ⟨_, hrun, rfl, parked_of_due hrun rfl rfl (.inr (.inl ⟨true, by decide, rfl⟩))⟩

/-- Bounds the worker's steps, with the clock running, until everything pushed is committed. -/
def work (s : WriteWorker W) : Nat :=
  16 * s.queue.length + match s.worker with
    | .popping => if s.queue = [] then 10 else 2
    | .parking => 9
    | .flagged => 8
    | .idling => 7
    | .counting _ | .parked => 6
    | .executing _ | .unparking => 5
    | .looping => 4
    | _ => 3

theorem stepWorker_work (hs : s.Recorded cfg) (hup : s.isShutdown = false) :
    ∃ s', s.stepWorker cfg true = some s' ∧ s'.pushed = s.pushed ∧ s'.isShutdown = false ∧
      (s'.worker ≠ .stopped ∧ s'.worker.inHand = [] ∧ s'.batchCmds = [] ∧ s'.queue = [] ∨
        s'.work < s.work) := by
  cases hw : s.worker with
  | stopped => rw [(hs.stopped hw).1] at hup; cases hup
  | panicked => exact absurd hw hs.running
  | counting cmd =>
    have hcounted := hs.counted
    grind [stepWorker, work, WritePoint.uncounted]
  | _ => grind [stepWorker, work, flush, WritePoint.inHand]

/-- Unless the manager shuts down, the worker alone commits all that has been pushed. -/
theorem exists_run_commits_pushed (hrun : Runs.run (step cfg) {} events = some s)
    (hup : s.isShutdown = false) :
    ∃ n s', Runs.run (step cfg) s (.replicate n (.worker true)) = some s' ∧
      s'.batches.flatten = s.pushed := by
  refine Runs.exists_replicate
    (I := fun t => t.Recorded cfg ∧ t.isShutdown = false ∧ t.pushed = s.pushed)
    work (fun ht => ?_) ⟨(inv_run hrun).1, hup, rfl⟩
  obtain ⟨t', hstep, hpushed, hup', hwork⟩ := stepWorker_work ht.1 ht.2.1
  have ht' := ht.1.stepWorker hstep
  refine .inr ⟨t', hstep, hwork.imp (fun hdone => ?_) fun hlt => ⟨⟨ht', hup', hpushed.trans ht.2.2⟩, hlt⟩⟩
  have hconserved := ht'.conserved
  rw [ht'.kept hdone.1, hdone.2.1, hdone.2.2.1, hdone.2.2.2] at hconserved
  simp only [List.append_nil] at hconserved
  exact hconserved.symm.trans (hpushed.trans ht.2.2)

theorem lateFlush_committed : ∃ s, Runs.run (step ⟨2, id⟩) {} lateFlush = some s ∧
    ∃ n s', Runs.run (step ⟨2, id⟩) s (.replicate n (.worker true)) = some s' ∧
      s'.batches.flatten = [true] := by
  have hrun : Runs.run (step ⟨2, id⟩) {} lateFlush = some _ := rfl
  exact ⟨_, hrun, exists_run_commits_pushed hrun rfl⟩

end WriteWorker
end Vprogs.Storage
