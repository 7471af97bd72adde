import Vprogs.Canonical.Manager

/-!
The oracle against the plain set of canonical ids. They agree, from the highest
finalized bound on, as long as no returning block falls into a bucket behind the one
being filled: the hot zone does not move back.
-/
namespace Vprogs.Canonical

/-- The chain stands for the set, except below the bound. -/
structure Agrees (c : CanonicalChain) (s : Finset Nat) (seen bound : Nat) : Prop where
  laid : c.Laid
  tailBucket : c.snapshot.hotZone.tailBucket = Bucket.locate seen
  tip : c.tip = s.sup id
  tip_le : s.sup id ≤ seen
  pos : ∀ i ∈ s, 0 < i
  bit : ∀ i, 0 < i → ∀ b, c.bitAt i = some b → (b = true ↔ i ∈ s)
  gone : ∀ i, 0 < i → c.bitAt i = none → i < bound

theorem agrees_empty : Agrees .empty ∅ 0 0 where
  laid := CanonicalChain.laid_empty
  tailBucket := rfl
  tip := rfl
  tip_le := Nat.le_refl 0
  pos _ h := by cases h
  bit i _ b hb := by
    rw [CanonicalChain.bitAt_empty] at hb
    cases hb
    exact iff_of_false Bool.false_ne_true (Finset.notMem_empty i)
  gone i _ h := by
    rw [CanonicalChain.bitAt_empty] at h
    cases h

namespace Agrees

variable {c c' : CanonicalChain} {s : Finset Nat} {seen bound : Nat} {debug : Bool}

theorem le_tip (h : Agrees c s seen bound) {i : Nat} (hi : i ∈ s) : i ≤ c.tip :=
  h.tip ▸ Finset.le_sup (f := id) hi

theorem isCanonical (h : Agrees c s seen bound) {i : Nat} (hi : bound ≤ i) :
    c.isCanonical c.snapshot i = decide (i ∈ s) := by
  rw [h.laid.isCanonical_eq]
  by_cases hrange : 0 < i ∧ i ≤ c.tip
  · rw [decide_eq_true hrange, Bool.true_and]
    cases hbit : c.bitAt i with
    | none => exact absurd (h.gone i hrange.1 hbit) (Nat.not_lt.mpr hi)
    | some b =>
      have hiff := h.bit i hrange.1 b hbit
      rw [Option.getD_some, Bool.eq_iff_iff, hiff, decide_eq_true_eq]
  · have hnot : i ∉ s := fun hmem => hrange ⟨h.pos i hmem, h.le_tip hmem⟩
    rw [decide_eq_false hrange, decide_eq_false hnot, Bool.false_and]

theorem append (h : Agrees c s seen bound) {i : Nat} (htip : c.tip < i)
    (hforward : Bucket.locate seen ≤ Bucket.locate i) (hstep : c.append debug i = some c') :
    Agrees c' (insert i s) (max seen i) bound := by
  have ⟨hlaid, htip', htail, hbits⟩ := CanonicalChain.append_bitAt h.laid (h.tailBucket ▸ hforward) hstep
  have hsup : (insert i s).sup id = i := by
    rw [Finset.sup_insert, id, ← h.tip]
    exact max_eq_left (Nat.le_of_lt htip)
  refine ⟨hlaid, ?_, htip'.trans hsup.symm, ?_, fun j hj => ?_, fun j hj b hb => ?_, fun j hj hb => ?_⟩
  · rw [htail]
    match Nat.le_total seen i with
    | .inl hle => rw [max_eq_right hle]
    | .inr hle =>
      rw [max_eq_left hle]
      exact Nat.le_antisymm (CanonicalChain.locate_mono hle) hforward
  · rw [hsup]
    exact Nat.le_max_right _ _
  · match Finset.mem_insert.mp hj with
    | .inl heq => omega
    | .inr hmem => exact h.pos j hmem
  · rw [hbits j hj] at hb
    rw [Finset.mem_insert]
    split at hb
    · next heq =>
      cases hb
      exact iff_of_true rfl (.inl heq)
    · next hne => rw [h.bit j hj b hb, or_iff_right hne]
  · rw [hbits j hj] at hb
    split at hb
    · cases hb
    · exact h.gone j hj hb

theorem rollback (h : Agrees c s seen bound) {newTip : Nat} (hvalid : newTip = 0 ∨ newTip ∈ s)
    (hstep : c.rollback debug newTip = some c') : Agrees c' (s.filter (· ≤ newTip)) seen bound := by
  have ⟨hlaid, htip', htail, hbits⟩ := CanonicalChain.rollback_bitAt h.laid hstep
  have hsup : (s.filter (· ≤ newTip)).sup id = newTip := by
    refine Nat.le_antisymm (Finset.sup_le fun i hi => (Finset.mem_filter.mp hi).2) ?_
    match hvalid with
    | .inl hzero => exact hzero ▸ Nat.zero_le _
    | .inr hmem => exact Finset.le_sup (f := id) (Finset.mem_filter.mpr ⟨hmem, Nat.le_refl _⟩)
  refine ⟨hlaid, htail.trans h.tailBucket, htip'.trans hsup.symm, ?_, fun j hj => ?_, fun j hj b hb => ?_,
    fun j hj hb => ?_⟩
  · exact Nat.le_trans (Finset.sup_mono (Finset.filter_subset _ s)) h.tip_le
  · exact h.pos j (Finset.mem_of_mem_filter j hj)
  · rw [hbits j hj] at hb
    have ⟨b', hb', heq⟩ := Option.map_eq_some_iff.mp hb
    have hiff := h.bit j hj b' hb'
    rw [← heq, Bool.and_eq_true, hiff, decide_eq_true_eq, Finset.mem_filter]
    refine and_congr_right fun hmem => ?_
    have := h.le_tip hmem
    omega
  · rw [hbits j hj] at hb
    exact h.gone j hj (Option.map_eq_none_iff.mp hb)

theorem finalize (h : Agrees c s seen bound) (below : Nat) :
    Agrees (c.finalize below) s seen (max bound below) := by
  have ⟨hlaid, hsnap, hbits⟩ := CanonicalChain.finalize_bitAt h.laid below
  refine ⟨hlaid, by rw [hsnap, h.tailBucket], ?_, h.tip_le, h.pos, fun j hj b hb => ?_, fun j hj hb => ?_⟩
  · rw [CanonicalChain.tip, hsnap]
    exact h.tip
  · rw [hbits] at hb
    split at hb
    · cases hb
    · exact h.bit j hj b hb
  · rw [hbits] at hb
    split at hb
    · next hcut =>
      have hlt : j < below := by
        by_contra hge
        exact absurd (CanonicalChain.locate_mono (Nat.not_lt.mp hge)) (Nat.not_le.mpr hcut.2.1)
      exact Nat.lt_of_lt_of_le hlt (Nat.le_max_right _ _)
    · exact Nat.lt_of_lt_of_le (h.gone j hj hb) (Nat.le_max_left _ _)

end Agrees

namespace CanonicalChainManager

open BatchMetadata
open Runs (run Along)

variable {M : Type} [BatchMetadata M]

/-- A returning block is above the tip, and a rollback goes to a canonical id or 0. -/
def Valid (p : CanonicalChainManager (Finset Nat) M) : Op M → Prop
  | .append metadata => ∀ id ∈ p.index (blockHash metadata), plain.tip p.chain < id
  | .rollback newTip => newTip = 0 ∨ newTip ∈ p.chain
  | .finalize _ => True

/-- A returning block does not fall into an earlier bucket than the highest id. -/
def Forward (p : CanonicalChainManager (Finset Nat) M) : Op M → Prop
  | .append metadata => ∀ id ∈ p.index (blockHash metadata), Bucket.locate p.seen ≤ Bucket.locate id
  | _ => True

/-- Two managers with the same log, over the oracle and over the set. -/
structure Follows (m : CanonicalChainManager CanonicalChain M)
    (p : CanonicalChainManager (Finset Nat) M) (bound : Nat) : Prop where
  base : m.base = p.base
  entries : m.entries = p.entries
  index : m.index = p.index
  logged : p.Logged
  agrees : Agrees m.chain p.chain p.seen bound

variable {m : CanonicalChainManager CanonicalChain M} {p : CanonicalChainManager (Finset Nat) M}
  {bound : Nat} {debug : Bool}

/-- Both managers append the same id above the tip, to logs that stay the same. -/
theorem append_cases (h : Follows m p bound) {metadata : M} (hvalid : p.Valid (.append metadata)) :
    ∃ id, ∃ m' : CanonicalChainManager CanonicalChain M, ∃ p' : CanonicalChainManager (Finset Nat) M,
      m.chain.tip < id ∧ (p.Forward (.append metadata) ↔ Bucket.locate p.seen ≤ Bucket.locate id) ∧
      (∀ debug, m.step (CanonicalChain.oracle debug) (.append metadata) =
        (m.chain.append debug id).map fun c => { m' with chain := c }) ∧
      p.step plain (.append metadata) = some { p' with chain := insert id p.chain } ∧
      m'.base = p'.base ∧ m'.entries = p'.entries ∧ m'.index = p'.index ∧ p'.Logged ∧
      p'.seen = max p.seen id := by
  have htip : plain.tip p.chain = m.chain.tip := h.agrees.tip.symm
  cases hindex : p.index (blockHash metadata) with
  | some id =>
    have habove : plain.tip p.chain < id := hvalid id hindex
    refine ⟨id, m, p, htip ▸ habove, ?_, fun debug => ?_, ?_, h.base, h.entries, h.index, h.logged, ?_⟩
    · simp only [Forward, hindex, Option.mem_def, Option.some.injEq, forall_eq']
    · have htip' : (CanonicalChain.oracle debug).tip m.chain < id := by
        rw [htip] at habove
        exact habove
      rw [step, append, h.index, hindex]
      dsimp only
      rw [if_pos htip', Option.map_map]
      rfl
    · rw [step, append, hindex]
      dsimp only
      rw [if_pos habove]
      rfl
    · exact (max_eq_left (h.logged.index _ id hindex)).symm
  | none =>
    obtain ⟨hlogged, hid, hseen⟩ := h.logged.push metadata
    have hsame : (m.push metadata).1 = (p.push metadata).1 := by
      change m.base + m.entries.length = p.base + p.entries.length
      rw [h.base, h.entries]
    have hle := h.agrees.tip_le
    refine ⟨p.seen + 1, (m.push metadata).2, (p.push metadata).2, ?_, ?_, fun debug => ?_, ?_, h.base, ?_, ?_,
      hlogged, ?_⟩
    · rw [h.agrees.tip]
      omega
    · refine iff_of_true (fun id hid => ?_) (CanonicalChain.locate_mono (Nat.le_succ _))
      rw [hindex] at hid
      cases hid
    · rw [step, append, h.index, hindex]
      dsimp only
      rw [hsame, hid, Option.map_map]
      rfl
    · rw [step, append, hindex]
      dsimp only
      rw [hid]
      rfl
    · change m.entries ++ [metadata] = p.entries ++ [metadata]
      rw [h.entries]
    · change Function.update m.index _ (some (m.push metadata).1) =
        Function.update p.index _ (some (p.push metadata).1)
      rw [h.index, hsame]
    · rw [hseen]
      exact (max_eq_right (Nat.le_succ _)).symm

theorem append_follows (h : Follows m p bound) {metadata : M} (hvalid : p.Valid (.append metadata))
    (hforward : p.Forward (.append metadata)) :
    ∃ m' p', m.step (CanonicalChain.oracle debug) (.append metadata) = some m' ∧
      p.step plain (.append metadata) = some p' ∧ Follows m' p' bound := by
  have ⟨id, m', p', htip, hiff, hm, hp, hbase, hentries, hindex, hlogged, hseen⟩ := append_cases h hvalid
  have hlocate := hiff.mp hforward
  have hsome := (CanonicalChain.append_isSome debug htip).mpr fun hback =>
    absurd hlocate (Nat.not_le.mpr (h.agrees.tailBucket ▸ hback.2))
  have ⟨c, hc⟩ := Option.isSome_iff_exists.mp hsome
  refine ⟨{ m' with chain := c }, _, by rw [hm, hc]; rfl, hp, hbase, hentries, hindex, ⟨hlogged.base, hlogged.index⟩, ?_⟩
  change Agrees c (insert id p.chain) p'.seen bound
  rw [hseen]
  exact h.agrees.append htip hlocate hc

/-- With debug assertions an append that moves the hot zone back panics. -/
theorem forward_of_append (h : Follows m p bound) {metadata : M} (hvalid : p.Valid (.append metadata))
    (hstep : (m.step (CanonicalChain.oracle true) (.append metadata)).isSome = true) :
    p.Forward (.append metadata) := by
  have ⟨id, m', p', htip, hiff, hm, _⟩ := append_cases h hvalid
  rw [hm, Option.isSome_map, CanonicalChain.append_isSome true htip, h.agrees.tailBucket] at hstep
  exact hiff.mpr (Nat.not_lt.mp fun hlt => hstep ⟨rfl, hlt⟩)

omit [BatchMetadata M] in
theorem rollback_follows (h : Follows m p bound) {newTip : Nat} (hvalid : newTip = 0 ∨ newTip ∈ p.chain) :
    ∃ m' p', m.rollback (CanonicalChain.oracle debug) newTip = some m' ∧
      p.rollback plain newTip = some p' ∧ Follows m' p' bound := by
  have hle : newTip ≤ m.chain.tip := by
    match hvalid with
    | .inl hzero => exact hzero ▸ Nat.zero_le _
    | .inr hmem => exact h.agrees.le_tip hmem
  have ⟨c, hc⟩ := CanonicalChain.rollback_isSome debug hle
  refine ⟨{ m with chain := c }, _, ?_, rfl, h.base, h.entries, h.index, ⟨h.logged.base, h.logged.index⟩, ?_⟩
  · rw [rollback]
    change (m.chain.rollback debug newTip).map _ = _
    rw [hc]
    rfl
  · exact h.agrees.rollback hvalid hc

theorem finalize_follows (h : Follows m p bound) (below : Nat) :
    Follows (m.finalize (CanonicalChain.oracle debug) below) (p.finalize plain below) (max bound below) := by
  have ⟨hlogged, hseen⟩ := Logged.dropEntries below h.logged
  have hfinal : m.finalize (CanonicalChain.oracle debug) below =
      { p.finalize plain below with chain := m.chain.finalize below } := by
    rw [finalize, h.base, h.index, h.entries]
    exact dropEntries_chain below _ p.chain p.base p.index p.entries
  have hchain : (p.finalize plain below).chain = p.chain := by
    rw [finalize, dropEntries_chain below (plain.finalize p.chain below) p.chain]
    rfl
  rw [hfinal]
  refine ⟨rfl, rfl, rfl, hlogged, ?_⟩
  change Agrees (m.chain.finalize below) (p.finalize plain below).chain (p.finalize plain below).seen _
  rw [hchain, show (p.finalize plain below).seen = p.seen from hseen]
  exact h.agrees.finalize below

/-! ### Runs -/

theorem step_follows (debug : Bool) (h : Follows m p bound) {op : Op M} (hvalid : p.Valid op) (hforward : p.Forward op) :
    ∃ m' p', m.step (CanonicalChain.oracle debug) op = some m' ∧ p.step plain op = some p' ∧
      Follows m' p' (max bound op.bound) := by
  match op with
  | .append metadata =>
    rw [show Op.bound (.append metadata) = 0 from rfl, Nat.max_zero]
    exact append_follows h hvalid hforward
  | .rollback newTip =>
    rw [show Op.bound (.rollback newTip : Op M) = 0 from rfl, Nat.max_zero]
    exact rollback_follows h hvalid
  | .finalize below => exact ⟨_, _, rfl, rfl, finalize_follows h below⟩

theorem forward_of_step (h : Follows m p bound) {op : Op M} (hvalid : p.Valid op)
    (hstep : (m.step (CanonicalChain.oracle true) op).isSome = true) : p.Forward op := by
  match op with
  | .append metadata => exact forward_of_append h hvalid hstep
  | .rollback _ | .finalize _ => trivial

theorem run_follows (debug : Bool) {ops : List (Op M)} (h : Follows m p bound) (hvalid : Along (step plain) Valid p ops)
    (hforward : Along (step plain) Forward p ops) :
    ∃ m' p', run (step (CanonicalChain.oracle debug)) m ops = some m' ∧ run (step plain) p ops = some p' ∧
      Follows m' p' (ops.foldl (fun b op => max b op.bound) bound) := by
  induction ops generalizing m p bound with
  | nil => exact ⟨m, p, rfl, rfl, h⟩
  | cons op ops ih =>
    have ⟨m', p', hm, hp, hnext⟩ := step_follows debug h hvalid.1 hforward.1
    have ⟨m'', p'', hm', hp', hlast⟩ := ih hnext (hvalid.2 p' hp) (hforward.2 p' hp)
    exact ⟨m'', p'', Runs.run_cons.mpr ⟨m', hm, hm'⟩, Runs.run_cons.mpr ⟨p', hp, hp'⟩, hlast⟩

theorem forward_of_run {ops : List (Op M)} (h : Follows m p bound) (hvalid : Along (step plain) Valid p ops)
    (hrun : (run (step (CanonicalChain.oracle true)) m ops).isSome = true) : Along (step plain) Forward p ops := by
  induction ops generalizing m p bound with
  | nil => trivial
  | cons op ops ih =>
    have ⟨last, hlast⟩ := Option.isSome_iff_exists.mp hrun
    have ⟨m', hm, hrest⟩ := Runs.run_cons.mp hlast
    have hforward := forward_of_step h hvalid.1 (Option.isSome_iff_exists.mpr ⟨m', hm⟩)
    refine ⟨hforward, fun p' hp => ?_⟩
    have ⟨m'', p'', hm', hp', hnext⟩ := step_follows true h hvalid.1 hforward
    cases hm.symm.trans hm'
    cases hp.symm.trans hp'
    exact ih hnext (hvalid.2 p' hp) (Option.isSome_iff_exists.mpr ⟨last, hrest⟩)

omit [BatchMetadata M] in
theorem foldl_bound_le {ops : List (Op M)} {i : Nat} (hbound : bound ≤ i)
    (h : ∀ below, .finalize below ∈ ops → below ≤ i) :
    ops.foldl (fun b op => max b op.bound) bound ≤ i := by
  induction ops generalizing bound with
  | nil => exact hbound
  | cons op ops ih =>
    refine ih (Nat.max_le.mpr ⟨hbound, ?_⟩) fun below hmem => h below (List.mem_cons_of_mem _ hmem)
    match op with
    | .finalize below => exact h below List.mem_cons_self
    | .append _ | .rollback _ => exact Nat.zero_le i

omit [BatchMetadata M] in
theorem follows_empty : Follows (M := M) { chain := .empty } { chain := ∅ } 0 :=
  ⟨rfl, rfl, rfl, ⟨Nat.one_pos, fun _ _ h => by cases h⟩, agrees_empty⟩

/-- In every build no operation panics and the oracle answers as the set, from the
highest finalized bound on, if and only if no append moves the hot zone back. -/
theorem oracle_agrees_with_set_iff {ops : List (Op M)} (hvalid : Along (step plain) Valid { chain := ∅ } ops) :
    (∀ debug, ∃ m p, run (step (CanonicalChain.oracle debug)) { chain := .empty } ops = some m ∧
      run (step plain) { chain := ∅ } ops = some p ∧ m.index = p.index ∧ m.chain.tip = p.chain.sup id ∧
      ∀ i, (∀ below, .finalize below ∈ ops → below ≤ i) →
        m.chain.isCanonical m.chain.snapshot i = decide (i ∈ p.chain)) ↔
      Along (step plain) Forward { chain := ∅ } ops := by
  constructor
  · intro h
    have ⟨m, _, hm, _⟩ := h true
    exact forward_of_run follows_empty hvalid (Option.isSome_iff_exists.mpr ⟨m, hm⟩)
  · intro hforward debug
    have ⟨m, p, hm, hp, hlast⟩ := run_follows debug follows_empty hvalid hforward
    refine ⟨m, p, hm, hp, hlast.index, hlast.agrees.tip, fun i hi => hlast.agrees.isCanonical ?_⟩
    exact foldl_bound_le (Nat.zero_le i) hi

instance (p : CanonicalChainManager (Finset Nat) M) (op : Op M) : Decidable (p.Valid op) := by
  cases op <;> unfold Valid <;> infer_instance

instance (p : CanonicalChainManager (Finset Nat) M) (op : Op M) : Decidable (p.Forward op) := by
  cases op <;> unfold Forward <;> infer_instance

/-- Two buckets of blocks, all but the first taken back; the second returns. -/
def returning : List (Op NumberedBlock) :=
  (List.range' 1 129).map (fun n => .append ⟨n, n - 1⟩) ++ [.rollback 1, .append ⟨2, 1⟩]

/-- With debug assertions the return panics. Without them the first block is lost. -/
theorem returning_loses_first :
    Along (step plain) Valid { chain := ∅ } returning ∧
      (run (step (CanonicalChain.oracle true)) { chain := .empty } returning).isNone = true ∧
      ∃ m p, run (step (CanonicalChain.oracle false)) { chain := .empty } returning = some m ∧
        run (step plain) { chain := ∅ } returning = some p ∧ 1 ∈ p.chain ∧
        m.chain.isCanonical m.chain.snapshot 1 = false := by
  have hruns : Along (step plain) Valid { chain := ∅ } returning ∧
      (run (step (CanonicalChain.oracle true)) { chain := .empty } returning).isNone = true ∧
      ((run (step (CanonicalChain.oracle false)) { chain := .empty } returning).bind fun m =>
        (run (step plain) { chain := ∅ } returning).map fun p => decide
          (1 ∈ p.chain ∧ m.chain.isCanonical m.chain.snapshot 1 = false)) = some true := by
    decide +kernel
  have ⟨hvalid, hpanics, hrun⟩ := hruns
  have ⟨m, hm, hmap⟩ := Option.bind_eq_some_iff.mp hrun
  have ⟨p, hp, heq⟩ := Option.map_eq_some_iff.mp hmap
  exact ⟨hvalid, hpanics, m, p, hm, hp, of_decide_eq_true heq⟩

/-- Blocks 2 to 4 are taken back and 4 returns past the gap. -/
def reviving : List (Op NumberedBlock) :=
  [.append ⟨1, 0⟩, .append ⟨2, 1⟩, .append ⟨3, 2⟩, .append ⟨4, 1⟩, .rollback 1, .append ⟨4, 1⟩, .finalize 2]

theorem reviving_agrees :
    Along (step plain) Valid { chain := ∅ } reviving ∧ Along (step plain) Forward { chain := ∅ } reviving ∧
      ∃ m p, run (step (CanonicalChain.oracle true)) { chain := .empty } reviving = some m ∧
        run (step plain) { chain := ∅ } reviving = some p ∧ m.index = p.index ∧ m.chain.tip = p.chain.sup id ∧
        ∀ i, (∀ below, .finalize below ∈ reviving → below ≤ i) →
          m.chain.isCanonical m.chain.snapshot i = decide (i ∈ p.chain) := by
  have hvalid : Along (step plain) Valid { chain := ∅ } reviving := by decide +kernel
  have hforward : Along (step plain) Forward { chain := ∅ } reviving := by decide +kernel
  exact ⟨hvalid, hforward, (oracle_agrees_with_set_iff hvalid).mpr hforward true⟩

end CanonicalChainManager

end Vprogs.Canonical
