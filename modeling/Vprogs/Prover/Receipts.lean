import Vprogs.Runs
import Vprogs.Storage.Column

/-!
The transaction prover over the proof-receipt cache. Receipts of every kind share one
column, under keys that start with the checkpoint index. The worker proves a queued
transaction unless its receipt is cached, and publishes it once it is durable. It waits for
a notification when its inbox is empty, and looks for a shutdown only there.
-/
namespace Vprogs.Prover

/-- What ends a key: a transaction's, a batch's or a bundle's. -/
inductive ReceiptKind where
  | tx (mergeIdx : UInt32)
  | batch
  | agg (seqCommit : Arr 32)
  deriving DecidableEq

structure ReceiptKey where
  checkpointIndex : UInt64
  blockHash : Arr 32
  imageId : Arr 32
  kind : ReceiptKind
  deriving DecidableEq

def ReceiptKind.asBytes : ReceiptKind → Bytes
  | .tx mergeIdx => beBytes 4 mergeIdx.toNat
  | .batch => []
  | .agg seqCommit => seqCommit.val

def ReceiptKey.asBytes (k : ReceiptKey) : Bytes :=
  beBytes 8 k.checkpointIndex.toNat ++ (k.blockHash.val ++ (k.imageId.val ++ k.kind.asBytes))

/-- The kinds differ in length, so receipts of two kinds never share a key. -/
theorem ReceiptKind.asBytes_injective : Function.Injective ReceiptKind.asBytes := by
  intro k k' h
  have hlength := congrArg List.length h
  cases k <;> cases k' <;> simp [asBytes] at h hlength ⊢
  case tx.tx i j => exact UInt32.toNat_inj.mp (beBytes_injective i.toNat_lt j.toNat_lt h)
  case agg.agg => exact Arr.ext h

theorem ReceiptKey.asBytes_injective : Function.Injective ReceiptKey.asBytes := by
  rintro ⟨⟩ ⟨⟩ h
  obtain ⟨hindex, h⟩ := List.append_inj h (by simp)
  obtain ⟨hblock, h⟩ := List.append_inj h (by simp)
  obtain ⟨himage, hkind⟩ := List.append_inj h (by simp)
  rw [mk.injEq]
  exact ⟨UInt64.toNat_inj.mp (beBytes_injective (UInt64.toNat_lt _) (UInt64.toNat_lt _) hindex),
    Arr.ext hblock, Arr.ext himage, ReceiptKind.asBytes_injective hkind⟩

@[grind =] theorem get_put_asBytes (c : Column Bytes Bytes) (k k' : ReceiptKey) (r : Bytes) :
    (c.put k.asBytes r).get k'.asBytes = if k' = k then some r else c.get k'.asBytes := by
  simp only [Column.get_put, ReceiptKey.asBytes_injective.eq_iff]

/-- Deletes the receipts of one checkpoint, of every kind. -/
def invalidateCheckpoint (c : Column Bytes Bytes) (index : UInt64) : Column Bytes Bytes :=
  c.writeAll ((c.scan fun k => (beBytes 8 index.toNat).isPrefixOf k).map fun e => .delete e.1)

@[grind =] theorem get_invalidateCheckpoint (c : Column Bytes Bytes) (index : UInt64) (k : ReceiptKey) :
    (invalidateCheckpoint c index).get k.asBytes =
      if k.checkpointIndex = index then none else c.get k.asBytes := by
  have hiff : (beBytes 8 index.toNat).isPrefixOf k.asBytes ↔ k.checkpointIndex = index := by
    refine List.isPrefixOf_iff_prefix.trans ⟨?_, fun h => ⟨_, by rw [← h]; rfl⟩⟩
    rintro ⟨rest, hrest⟩
    exact (UInt64.toNat_inj.mp (beBytes_injective index.toNat_lt k.checkpointIndex.toNat_lt
      (List.append_inj hrest (by simp)).1)).symm
  by_cases hk : k.checkpointIndex = index ∧ c.get k.asBytes ≠ none
  · obtain ⟨v, hv⟩ := Option.ne_none_iff_exists'.mp hk.2
    rw [if_pos hk.1]
    refine Column.get_writeAll_of_same (fun w hw _ => ?_)
      ⟨_, List.mem_map_of_mem (Column.mem_scan.mpr ⟨hiff.mpr hk.1, hv⟩), rfl⟩ c
    obtain ⟨e, -, rfl⟩ := List.mem_map.mp hw
    rfl
  · rw [invalidateCheckpoint, Column.get_writeAll_of_ne fun w hw hkey => ?_]
    · grind
    · obtain ⟨e, he, rfl⟩ := List.mem_map.mp hw
      obtain ⟨hfront, hget⟩ := Column.mem_scan.mp he
      rw [show e.1 = k.asBytes from hkey] at hfront hget
      exact hk ⟨hiff.mp hfront, by simp [hget]⟩

inductive ReceiptWrite where
  | put (key : ReceiptKey) (receipt : Bytes)
  | invalidate (index : UInt64)

namespace ReceiptWrite

def exec (c : Column Bytes Bytes) : ReceiptWrite → Column Bytes Bytes
  | .put key receipt => c.put key.asBytes receipt
  | .invalidate index => invalidateCheckpoint c index

/-- What a write means for a cache of typed keys. -/
def apply (cache : ReceiptKey → Option Bytes) : ReceiptWrite → ReceiptKey → Option Bytes
  | .put key receipt => fun k => if k = key then receipt else cache k
  | .invalidate index => fun k => if k.checkpointIndex = index then none else cache k

/-- One column of bytes serves all kinds of receipts as if each key had a place of its own. -/
theorem column_refines_cache (writes : List ReceiptWrite) (k : ReceiptKey) :
    (writes.foldl exec .empty).get k.asBytes = writes.foldl apply (fun _ => none) k := by
  induction writes using List.reverseRecOn with
  | nil => rfl
  | append_singleton writes write ih =>
    rw [List.foldl_concat, List.foldl_concat]
    cases write <;> grind [exec, apply]

end ReceiptWrite

/-- A queued transaction with the batch that owns it. -/
structure Job where
  batch : Nat
  key : ReceiptKey
  isTx : ∃ mergeIdx, key.kind = .tx mergeIdx

inductive WorkerPoint where
  | popping
  /-- In `select!`, with an inbox that was empty. -/
  | waiting
  | stopped
  | reading (job : Job)
  | proving (job : Job)
  | storing (job : Job) (receipt : Bytes)
  | publishing (job : Job) (receipt : Bytes)

def WorkerPoint.inHand : WorkerPoint → List Job
  | popping | waiting | stopped => []
  | reading job | proving job | storing job _ | publishing job _ => [job]

structure TransactionProver where
  receipts : Column Bytes Bytes := .empty
  inbox : List Job := []
  /-- The permit `notify_one` leaves for the next wait. -/
  permit : Bool := false
  /-- How many callers of `push` have yet to call `notify_one`. -/
  notifying : Nat := 0
  isShutdown : Bool := false
  /-- Batches that are canceled or dropped. -/
  canceled : List Nat := []
  worker : WorkerPoint := .popping
  published : List (Job × Option Bytes) := []
  /-- Jobs in the order of their pushes; not in the source. -/
  submitted : List Job := []
  /-- Receipts in the order of their commits; not in the source. -/
  stored : List (ReceiptKey × Bytes) := []
  /-- Keys proved, until their receipt is invalidated or lost in a crash; not in the source. -/
  proved : List ReceiptKey := []

inductive ProverEvent where
  | submit (job : Job)
  | notify
  | shutdown
  | cancel (batch : Nat)
  /-- Another prover's receipt is committed. -/
  | other (key : ReceiptKey) (receipt : Bytes) (notTx : ∀ mergeIdx, key.kind ≠ .tx mergeIdx)
  | invalidate (index : UInt64)
  /-- Only the cache outlives the process. -/
  | restart
  /-- The worker's next step, with the backend's receipt where it proves. -/
  | worker (receipt : Bytes)

namespace TransactionProver
variable (s : TransactionProver)

def cached (k : ReceiptKey) : Option Bytes := s.receipts.get k.asBytes

def stepWorker (receipt : Bytes) : Option TransactionProver :=
  match s.worker with
  | .popping =>
    match s.inbox with
    | [] => some { s with worker := .waiting }
    | job :: inbox =>
      if job.batch ∈ s.canceled then
        some { s with inbox := inbox, published := s.published ++ [(job, none)] }
      else some { s with inbox := inbox, worker := .reading job }
  | .waiting =>
    if s.isShutdown then some { s with worker := .stopped }
    else if s.permit then some { s with permit := false, worker := .popping }
    else none
  | .stopped => none
  | .reading job =>
    match s.cached job.key with
    | some receipt => some { s with worker := .publishing job receipt }
    | none => some { s with worker := .proving job }
  | .proving job => some { s with worker := .storing job receipt, proved := job.key :: s.proved }
  | .storing job receipt => some { s with
      receipts := s.receipts.put job.key.asBytes receipt
      stored := s.stored ++ [(job.key, receipt)]
      worker := .publishing job receipt }
  | .publishing job receipt => some { s with
      published := s.published ++ [(job, some receipt)], worker := .popping }

def step : ProverEvent → Option TransactionProver
  | .submit job => some { s with
      inbox := s.inbox ++ [job]
      notifying := s.notifying + 1
      submitted := s.submitted ++ [job] }
  | .notify => if s.notifying = 0 then none else some { s with notifying := s.notifying - 1, permit := true }
  | .shutdown => some { s with isShutdown := true }
  | .cancel batch => some { s with canceled := batch :: s.canceled }
  | .other key receipt _ => some { s with receipts := s.receipts.put key.asBytes receipt }
  | .invalidate index => some { s with
      receipts := invalidateCheckpoint s.receipts index
      proved := s.proved.filter fun k => k.checkpointIndex ≠ index }
  | .restart => some {
      receipts := s.receipts
      stored := s.stored
      proved := s.proved.filter fun k => (s.cached k).isSome }
  | .worker receipt => s.stepWorker receipt

/-- What the worker may rely on where it stands. -/
def Grounded : Prop :=
  match s.worker with
  -- A push that the worker has not seen is notified, or will be.
  | .waiting => s.inbox ≠ [] → s.permit ∨ 0 < s.notifying
  | .stopped => s.isShutdown
  | .proving job => s.cached job.key = none
  | .publishing job receipt => (job.key, receipt) ∈ s.stored
  | _ => True

structure Sound : Prop where
  ordered : s.submitted = s.published.map Prod.fst ++ s.worker.inHand ++ s.inbox
  skipped : ∀ job, (job, none) ∈ s.published → job.batch ∈ s.canceled
  grounded : s.Grounded
  once : s.proved.Nodup
  kept : ∀ k ∈ s.proved, s.cached k = none → ∃ job r, s.worker = .storing job r ∧ job.key = k
  committed : ∀ (job : Job) r, s.cached job.key = some r → (job.key, r) ∈ s.stored
  durable : ∀ job r, (job, some r) ∈ s.published → (job.key, r) ∈ s.stored

variable {s} {s' : TransactionProver} {events : List ProverEvent}

/-- Nobody but the worker takes anything away that it relies on. -/
theorem Grounded.imp (h : s.Grounded) (hworker : s'.worker = s.worker)
    (hwoken : s'.inbox ≠ [] → (s.inbox ≠ [] → s.permit ∨ 0 < s.notifying) → s'.permit ∨ 0 < s'.notifying)
    (hshutdown : s.isShutdown → s'.isShutdown)
    (hmissed : ∀ job : Job, s.cached job.key = none → s'.cached job.key = none)
    (hstored : s.stored = s'.stored) : s'.Grounded := by
  unfold Grounded at h ⊢
  rw [hworker]
  cases hw : s.worker with
  | waiting =>
    rw [hw] at h
    exact fun hne => hwoken hne h
  | stopped =>
    rw [hw] at h
    exact hshutdown h
  | proving job =>
    rw [hw] at h
    exact hmissed job h
  | publishing job receipt =>
    rw [hw, hstored] at h
    exact h
  | popping | reading _ | storing _ _ => trivial

namespace Sound

/-- The worker moves on without touching the cache. -/
theorem moved (hs : s.Sound) (point : WorkerPoint) (inbox : List Job)
    (hstoring : ∀ job r, s.worker ≠ .storing job r)
    (hhand : s.worker.inHand ++ s.inbox = point.inHand ++ inbox)
    (hgrounded : { s with inbox := inbox, worker := point }.Grounded) :
    { s with inbox := inbox, worker := point }.Sound :=
  { hs with
    ordered := by rw [hs.ordered, List.append_assoc, hhand, List.append_assoc]
    grounded := hgrounded
    kept := by
      intro k hk hnone
      obtain ⟨job, r, hw, _⟩ := hs.kept k hk hnone
      exact absurd hw (hstoring job r) }

theorem published (hs : s.Sound) {job : Job} {receipt : Option Bytes} {inbox : List Job}
    (hstoring : ∀ job r, s.worker ≠ .storing job r)
    (hhand : s.worker.inHand ++ s.inbox = job :: inbox)
    (hskipped : receipt = none → job.batch ∈ s.canceled)
    (hdurable : ∀ r, receipt = some r → (job.key, r) ∈ s.stored) :
    { s with inbox := inbox, worker := .popping, published := s.published ++ [(job, receipt)] }.Sound :=
  { hs with
    ordered := by rw [hs.ordered, List.append_assoc, hhand]; simp [WorkerPoint.inHand]
    skipped := by
      intro job' hjob'
      rcases List.mem_append.mp hjob' with hold | hnew
      · exact hs.skipped job' hold
      · cases List.mem_singleton.mp hnew
        exact hskipped rfl
    grounded := trivial
    kept := by
      intro k hk hnone
      obtain ⟨job, r, hw, _⟩ := hs.kept k hk hnone
      exact absurd hw (hstoring job r)
    durable := by
      intro job' r hjob'
      rcases List.mem_append.mp hjob' with hold | hnew
      · exact hs.durable job' r hold
      · cases List.mem_singleton.mp hnew
        exact hdurable r rfl }

theorem stepWorker (hs : s.Sound) {receipt : Bytes} (hstep : s.stepWorker receipt = some s') : s'.Sound := by
  have hgrounded := hs.grounded
  cases hw : s.worker with
  | stopped => simp [TransactionProver.stepWorker, hw] at hstep
  | popping =>
    simp only [TransactionProver.stepWorker, hw] at hstep
    split at hstep
    · next hempty =>
      cases hstep
      exact hs.moved .waiting s.inbox (by simp [hw]) (by simp [hw, WorkerPoint.inHand])
        fun hne => absurd hempty hne
    · next job inbox hinbox =>
      split at hstep
      · next hcanceled =>
        cases hstep
        simpa [hw] using hs.published (by simp [hw]) (by simp [hw, hinbox, WorkerPoint.inHand])
          (fun _ => hcanceled) (by simp)
      · cases hstep
        exact hs.moved (.reading job) inbox (by simp [hw]) (by simp [hw, hinbox, WorkerPoint.inHand]) trivial
  | waiting =>
    simp only [TransactionProver.stepWorker, hw] at hstep
    split at hstep
    · next hshutdown =>
      cases hstep
      exact hs.moved .stopped s.inbox (by simp [hw]) (by simp [hw, WorkerPoint.inHand]) hshutdown
    · cases (Option.ite_none_right_eq_some.mp hstep).2
      exact { hs.moved .popping s.inbox (by simp [hw]) (by simp [hw, WorkerPoint.inHand]) trivial with }
  | reading job =>
    simp only [TransactionProver.stepWorker, hw] at hstep
    split at hstep
    · next r hcached =>
      cases hstep
      exact hs.moved (.publishing job r) s.inbox (by simp [hw]) (by simp [hw, WorkerPoint.inHand])
        (hs.committed job r hcached)
    · next hmissed =>
      cases hstep
      exact hs.moved (.proving job) s.inbox (by simp [hw]) (by simp [hw, WorkerPoint.inHand]) hmissed
  | proving job =>
    simp only [TransactionProver.stepWorker, hw] at hstep
    rw [Grounded, hw] at hgrounded
    -- The receipt is missing and none is on its way, so this key was not proved before.
    have hfresh : job.key ∉ s.proved := fun hmem => by simpa [hw] using hs.kept job.key hmem hgrounded
    cases hstep
    have hmoved := hs.moved (.storing job receipt) s.inbox (by simp [hw]) (by simp [hw, WorkerPoint.inHand]) trivial
    exact { hmoved with
      once := List.nodup_cons.mpr ⟨hfresh, hs.once⟩
      kept := by
        intro k hk hnone
        rcases List.mem_cons.mp hk with rfl | hold
        · exact ⟨job, receipt, rfl, rfl⟩
        · exact hmoved.kept k hold hnone }
  | storing job receipt =>
    simp only [TransactionProver.stepWorker, hw] at hstep
    cases hstep
    exact {
      ordered := by simpa [hw, WorkerPoint.inHand] using hs.ordered
      skipped := hs.skipped
      grounded := List.mem_append_right _ (List.mem_singleton.mpr rfl)
      once := hs.once
      kept := by
        intro k hk hnone
        rw [cached, get_put_asBytes] at hnone
        split at hnone
        · cases hnone
        · next hne =>
          obtain ⟨job', r, hstored, hkey⟩ := hs.kept k hk hnone
          cases hw.symm.trans hstored
          exact absurd hkey.symm hne
      committed := by
        intro job' r hcached
        rw [cached, get_put_asBytes] at hcached
        split at hcached
        · next hkey =>
          cases hcached
          rw [hkey]
          exact List.mem_append_right _ (List.mem_singleton.mpr rfl)
        · exact List.mem_append_left _ (hs.committed job' r hcached)
      durable := fun job' r hjob' => List.mem_append_left _ (hs.durable job' r hjob') }
  | publishing job r =>
    simp only [TransactionProver.stepWorker, hw] at hstep
    rw [Grounded, hw] at hgrounded
    cases hstep
    refine hs.published (by simp [hw]) (by simp [hw, WorkerPoint.inHand]) (by simp) fun r' hr' => ?_
    cases hr'
    exact hgrounded

theorem step (hs : s.Sound) {event : ProverEvent} (hstep : s.step event = some s') : s'.Sound := by
  cases event with
  | worker receipt => exact hs.stepWorker hstep
  | submit job =>
    cases hstep
    exact { hs with
      ordered := by rw [hs.ordered, List.append_assoc]
      grounded := hs.grounded.imp rfl (fun _ _ => .inr (Nat.succ_pos _)) id (fun _ => id) rfl }
  | notify =>
    cases (Option.ite_none_left_eq_some.mp hstep).2
    exact { hs with grounded := hs.grounded.imp rfl (fun _ _ => .inl rfl) id (fun _ => id) rfl }
  | shutdown =>
    cases hstep
    exact { hs with grounded := hs.grounded.imp rfl (fun hne h => h hne) (fun _ => rfl) (fun _ => id) rfl }
  | cancel batch =>
    cases hstep
    exact { hs with
      skipped := fun job hjob => List.mem_cons_of_mem _ (hs.skipped job hjob)
      grounded := hs.grounded.imp rfl (fun hne h => h hne) id (fun _ => id) rfl }
  | other key receipt hkind =>
    cases hstep
    have hsame (job : Job) : (s.receipts.put key.asBytes receipt).get job.key.asBytes = s.cached job.key := by
      have hne : job.key ≠ key := fun h => job.isTx.elim fun i hi => hkind i (h ▸ hi)
      rw [get_put_asBytes, if_neg hne, cached]
    exact { hs with
      grounded := hs.grounded.imp rfl (fun hne h => h hne) id (fun job h => (hsame job).trans h) rfl
      kept := fun k hk hnone => by
        rw [cached, get_put_asBytes] at hnone
        split at hnone
        · cases hnone
        · exact hs.kept k hk hnone
      committed := fun job r hcached => hs.committed job r ((hsame job).symm.trans hcached) }
  | invalidate index =>
    cases hstep
    exact { hs with
      grounded := hs.grounded.imp rfl (fun hne h => h hne) id
        (fun job h => by
          rw [cached, get_invalidateCheckpoint]
          split
          · rfl
          · exact h) rfl
      once := hs.once.filter _
      kept := fun k hk hnone => by
        obtain ⟨hk, hindex⟩ := List.mem_filter.mp hk
        rw [cached, get_invalidateCheckpoint, if_neg (by simpa using hindex)] at hnone
        exact hs.kept k hk hnone
      committed := fun job r hcached => by
        rw [cached, get_invalidateCheckpoint] at hcached
        split at hcached
        · cases hcached
        · exact hs.committed job r hcached }
  | restart =>
    cases hstep
    exact {
      ordered := rfl
      skipped := by simp
      grounded := trivial
      once := hs.once.filter _
      kept := fun k hk hnone => by
        have hsome : (s.cached k).isSome := (List.mem_filter.mp hk).2
        rw [show s.cached k = none from hnone] at hsome
        cases hsome
      committed := hs.committed
      durable := by simp }

end Sound

theorem sound_run (hrun : Runs.run step {} events = some s) : s.Sound := by
  refine Runs.invariant_all (I := Sound) (fun hs hstep => hs.step hstep) ?_ hrun
  exact ⟨rfl, by simp, trivial, .nil, by simp, by simp [cached, Column.empty, Column.get], by simp⟩

/-! ### Progress -/

/-- Bounds the worker's steps until its inbox is empty. -/
def work (s : TransactionProver) : Nat :=
  8 * s.inbox.length + match s.worker with
    | .popping | .stopped => 0
    | .waiting | .publishing _ _ => 1
    | .storing _ _ => 2
    | .proving _ => 3
    | .reading _ => 4

/-- The worker runs, and does not wait with an inbox it was not notified of. -/
structure Busy (s : TransactionProver) : Prop where
  up : s.isShutdown = false
  running : s.worker ≠ .stopped
  notified : s.worker = .waiting → s.inbox ≠ [] → s.permit

theorem Busy.stepWorker (hs : s.Busy) (hleft : s.worker.inHand ++ s.inbox ≠ []) (receipt : Bytes) :
    ∃ s', s.stepWorker receipt = some s' ∧ s'.submitted = s.submitted ∧ s'.Busy ∧ s'.work < s.work := by
  cases hw : s.worker with
  | stopped => exact absurd hw hs.running
  | popping =>
    rw [hw, WorkerPoint.inHand, List.nil_append] at hleft
    obtain ⟨job, inbox, hinbox⟩ := List.exists_cons_of_ne_nil hleft
    by_cases hcanceled : job.batch ∈ s.canceled
    · simp only [TransactionProver.stepWorker, hw, hinbox, if_pos hcanceled]
      exact ⟨_, rfl, rfl, ⟨hs.up, by simp, by simp⟩, by simp [work, hw, hinbox]⟩
    · simp only [TransactionProver.stepWorker, hw, hinbox, if_neg hcanceled]
      exact ⟨_, rfl, rfl, ⟨hs.up, by simp, by simp⟩, by simp [work, hw, hinbox]; omega⟩
  | waiting =>
    have hinbox : s.inbox ≠ [] := by simpa [hw, WorkerPoint.inHand] using hleft
    simp only [TransactionProver.stepWorker, hw, hs.up, hs.notified hw hinbox]
    exact ⟨_, rfl, rfl, ⟨rfl, by simp, by simp⟩, by simp [work, hw]⟩
  | reading job =>
    simp only [TransactionProver.stepWorker, hw]
    split <;> exact ⟨_, rfl, rfl, ⟨hs.up, by simp, by simp⟩, by simp [work, hw]⟩
  | proving job | storing job r | publishing job r =>
    simp only [TransactionProver.stepWorker, hw]
    exact ⟨_, rfl, rfl, ⟨hs.up, by simp, by simp⟩, by simp [work, hw]⟩

/-- Every job is in exactly one place: they are published once and in the order of their
submission, and only a canceled batch's without a receipt. Unless the prover is shut down,
the worker alone publishes all that was submitted, once the submitters have notified it. -/
theorem submitted_eq_published_append (hrun : Runs.run step {} events = some s) :
    s.submitted = s.published.map Prod.fst ++ s.worker.inHand ++ s.inbox ∧
      (∀ job, (job, none) ∈ s.published → job.batch ∈ s.canceled) ∧
      (s.isShutdown = false → ∀ receipt,
        ∃ k m, Runs.run step s (.replicate k .notify) = some m ∧
          ∃ n s', Runs.run step m (.replicate n (.worker receipt)) = some s' ∧
            s'.published.map Prod.fst = s.submitted) := by
  have hs := sound_run hrun
  refine ⟨hs.ordered, hs.skipped, fun hup receipt => ?_⟩
  let I (t : TransactionProver) : Prop := t.Sound ∧ t.isShutdown = false ∧ t.submitted = s.submitted
  obtain ⟨k, m, hnotify, ⟨hm, hupm, hsubmitted⟩, hnone⟩ :
      ∃ k m, Runs.run step s (.replicate k .notify) = some m ∧ I m ∧ m.notifying = 0 := by
    refine Runs.exists_replicate (I := I) notifying (fun {t} ht => ?_) ⟨hs, hup, rfl⟩
    rcases Nat.eq_zero_or_pos t.notifying with hzero | hpos
    · exact .inl ⟨ht, hzero⟩
    · have hstep : t.step .notify = some { t with notifying := t.notifying - 1, permit := true } :=
        if_neg (Nat.ne_of_gt hpos)
      exact .inr ⟨_, hstep, .inr ⟨⟨ht.1.step hstep, ht.2⟩, Nat.sub_lt hpos Nat.one_pos⟩⟩
  have hbusy : m.Busy := by
    have hgrounded := hm.grounded
    refine ⟨hupm, fun hw => ?_, fun hw hinbox => ?_⟩
    · rw [Grounded, hw, hupm] at hgrounded
      cases hgrounded
    · rw [Grounded, hw] at hgrounded
      exact (hgrounded hinbox).resolve_right (by omega)
  refine ⟨k, m, hnotify, Runs.exists_replicate (I := fun t => I t ∧ t.Busy) work (fun {t} ht => ?_)
    ⟨⟨hm, hupm, hsubmitted⟩, hbusy⟩⟩
  obtain ⟨⟨ht, _, htsubmitted⟩, hbusy⟩ := ht
  by_cases hleft : t.worker.inHand ++ t.inbox = []
  · have hordered := ht.ordered
    rw [List.append_assoc, hleft, List.append_nil, htsubmitted] at hordered
    exact .inl hordered.symm
  · obtain ⟨t', hstep, hsame, hbusy', hlt⟩ := hbusy.stepWorker hleft receipt
    exact .inr ⟨t', hstep, .inr ⟨⟨⟨ht.stepWorker hstep, hbusy'.up, hsame.trans htsubmitted⟩, hbusy'⟩, hlt⟩⟩

def firstJob : Job := ⟨0, ⟨1, .fill 0, .fill 0, .tx 0⟩, 0, rfl⟩

/-- From the submission to the publication of a receipt that was not cached. -/
def firstRun : List ProverEvent := .submit firstJob :: .replicate 5 (.worker [7])

/-- The first job is published with its receipt. A second one, pushed while the worker waits,
is still in the inbox, and the worker gets there. -/
theorem firstRun_published : ∃ s,
    Runs.run step {} (firstRun ++ [.worker [], .submit firstJob]) = some s ∧
      s.published = [(firstJob, some [7])] ∧ s.worker = .waiting ∧
      [firstJob, firstJob] = s.published.map Prod.fst ++ s.worker.inHand ++ s.inbox ∧
      ∃ k m, Runs.run step s (.replicate k .notify) = some m ∧
        ∃ n s', Runs.run step m (.replicate n (.worker [9])) = some s' ∧
          s'.published.map Prod.fst = [firstJob, firstJob] := by
  have hrun : Runs.run step {} (firstRun ++ [.worker [], .submit firstJob]) = some _ := rfl
  obtain ⟨hordered, -, hprogress⟩ := submitted_eq_published_append hrun
  exact ⟨_, hrun, rfl, rfl, hordered, hprogress rfl [9]⟩

/-- A receipt is committed before it is published, and no key is proved twice unless its receipt
was invalidated or lost, over any number of restarts. -/
theorem published_durable_proved_once (hrun : Runs.run step {} events = some s) :
    (∀ job r, (job, some r) ∈ s.published → (job.key, r) ∈ s.stored) ∧ s.proved.Nodup :=
  ⟨(sound_run hrun).durable, (sound_run hrun).once⟩

theorem firstRun_durable : ∃ s, Runs.run step {} firstRun = some s ∧ (firstJob.key, [7]) ∈ s.stored := by
  have hrun : Runs.run step {} firstRun = some _ := rfl
  exact ⟨_, hrun, (published_durable_proved_once hrun).1 _ _ (.head _)⟩

end TransactionProver
end Vprogs.Prover
