import Vprogs.Smt.ReadSoundness

/-!
The post-state of one proof leaf. The scan over the members at a leaf decides
whether it is unchanged, keeps its own key, or is synthesised from several
entries; in each case the result is the canonical summary of the updated row.
-/
namespace Vprogs.Smt

variable {D : Type} [DecidableEq D]

section Synthesis

variable {H : Hasher D} {es : List (Key × D)} {rem : Nat}

omit [DecidableEq D] in
/-- Below a common prefix, ascending entries list the left side first. -/
theorem side_append_side_of_agree {es : List (Key × D)} {rem : Nat} (hbound : rem + 1 ≤ 256)
    (sorted : es.Pairwise fun a b => a.1 ≤ b.1)
    (agree : ∀ a ∈ es, ∀ b ∈ es, ∀ i < 255 - rem, a.1.getMsb i = b.1.getMsb i) :
    side rem false es ++ side rem true es = es := by
  have mono : es.Pairwise fun a b =>
      a.1.getMsb (255 - rem) = true → b.1.getMsb (255 - rem) = true := by
    refine sorted.imp_of_mem fun {a b} ha hb hle hbit => ?_
    by_cases same : a.1 = b.1
    · rwa [same] at hbit
    · exact Key.getMsb_mono_of_prefix (by omega) (fun i hi => agree _ ha _ hb i hi)
        (BitVec.lt_of_le_ne hle same) hbit
  clear sorted agree
  induction es with
  | nil => rfl
  | cons e es ih =>
    rw [List.pairwise_cons] at mono
    cases hb : e.1.getMsb (255 - rem) with
    | false =>
      have left : side rem false (e :: es) = e :: side rem false es := by simp [side, hb]
      have right : side rem true (e :: es) = side rem true es := by simp [side, hb]
      rw [left, right, List.cons_append, ih mono.2]
    | true =>
      have all : ∀ e' ∈ es, e'.1.getMsb (255 - rem) = true :=
        fun e' he' => mono.1 e' he' hb
      have left : side rem false (e :: es) = [] := by
        simp only [side, List.filter_eq_nil_iff, List.mem_cons]
        rintro x (rfl | hx)
        · simp [hb]
        · simp [all x hx]
      have right : side rem true (e :: es) = e :: es := by
        simp only [side, List.filter_eq_self, List.mem_cons]
        rintro x (rfl | hx)
        · simp [hb]
        · simp [all x hx]
      rw [left, right, List.nil_append]

omit [DecidableEq D] in
/-- The partition point by the next bit cuts such a list into its sides. -/
theorem partition_sides (parts : side rem false es ++ side rem true es = es) :
    es.take (slicePartitionPoint (fun e => !e.1.getMsb (255 - rem)) es) = side rem false es ∧
      es.drop (slicePartitionPoint (fun e => !e.1.getMsb (255 - rem)) es) = side rem true es := by
  have hmid : slicePartitionPoint (fun e => !e.1.getMsb (255 - rem)) es =
      (side rem false es).length := by
    nth_rewrite 1 [← parts]
    exact slicePartitionPoint_append (fun x hx => by simp [(mem_side.mp hx).2])
      (fun x hx => by simp [(mem_side.mp hx).2])
  rw [hmid]
  exact ⟨(congrArg (List.take _) parts).symm.trans List.take_left,
    (congrArg (List.drop _) parts).symm.trans List.drop_left⟩

theorem Proof.subtreeHash_sides (bound : rem + 1 ≤ 256) (two : 2 ≤ es.length)
    (parts : side rem false es ++ side rem true es = es) :
    Proof.subtreeHash H (rem + 1) es (256 - (rem + 1)) = (do
      let left ← Proof.subtreeHash H rem (side rem false es) (256 - rem)
      let right ← Proof.subtreeHash H rem (side rem true es) (256 - rem)
      pure (HashedNode.combine H left right)) := by
  obtain ⟨hleft, hright⟩ := partition_sides parts
  rcases es with _ | ⟨e, _ | ⟨e', rest⟩⟩
  · simp at two
  · simp at two
  · rw [Proof.subtreeHash, show 256 - (rem + 1) = 255 - rem by omega]
    simp only [hleft, hright, show 255 - rem + 1 = 256 - rem by omega]

/-- The synthesised subtree is the canonical one. -/
theorem Proof.subtreeHash_eq (seg : Segment H rem es) (sorted : es.Pairwise fun a b => a.1 ≤ b.1) :
    Proof.subtreeHash H rem es (256 - rem) = .ok (canon H rem es) := by
  induction rem generalizing es with
  | zero =>
    have one := seg.length_le_one
    rcases es with _ | ⟨e, _ | ⟨e', rest⟩⟩
    · rfl
    · rfl
    · simp at one
  | succ rem ih =>
    by_cases two : 2 ≤ es.length
    · have parts := side_append_side_of_agree seg.bound sorted fun a ha b hb i hi =>
        seg.agree a ha b hb i (by omega)
      rw [Proof.subtreeHash_sides seg.bound two parts, canon_succ seg.live,
        ih (seg.side false) (sorted.sublist List.filter_sublist),
        ih (seg.side true) (sorted.sublist List.filter_sublist)]
      rfl
    · rcases es with _ | ⟨e, _ | ⟨e', rest⟩⟩
      · rfl
      · rfl
      · simp at two

end Synthesis

namespace Proof

variable {H : Hasher D} {p : Proof D} {newValue : Nat → D}

/-- The queried key at a membership index. -/
def queriedKey (p : Proof D) (idx : Nat) : Key := (p.keys[idx]?).getD 0

/-- What the pass over a leaf's members has collected. -/
structure Scanned (H : Hasher D) (p : Proof D) (leaf : Leaf D) (newValue : Nat → D)
    (idxs : List Nat) (acc : UpdateScan D) : Prop where
  buffer : acc.buffer = (idxs.map fun i => (p.queriedKey i, newValue i)).filter
    fun u => decide (u.2 ≠ H.emptyHash)
  witness_none : acc.newWitnessValue = none →
    ∀ i ∈ idxs, ∀ pos, p.memberships[i]? ≠ some (.present pos)
  witness_some : ∀ v, acc.newWitnessValue = some v →
    ∃ i ∈ idxs, ∃ pos, p.memberships[i]? = some (.present pos) ∧ v = newValue i
  needsSynthesis : acc.needsSynthesis = true ↔
    ∃ i ∈ idxs, ∃ pos, p.memberships[i]? = some (.absent pos) ∧ newValue i ≠ H.emptyHash
  anyChange : acc.anyChange = true ↔ acc.needsSynthesis = true ∨
    ∃ i ∈ idxs, ∃ pos, p.memberships[i]? = some (.present pos) ∧ newValue i ≠ leaf.valueHash

theorem scanMember_flags {leaf : Leaf D} {acc acc' : UpdateScan D} {i : Nat} {m : Membership}
    (hm : p.memberships[i]? = some m) (hs : p.scanMember H leaf newValue acc i = .ok acc') :
    acc'.newWitnessValue = (match m with
        | .present _ => some (newValue i)
        | .absent _ => acc.newWitnessValue) ∧
      acc'.needsSynthesis = (match m with
        | .present _ => acc.needsSynthesis
        | .absent _ => acc.needsSynthesis || decide (newValue i ≠ H.emptyHash)) ∧
      acc'.anyChange = (match m with
        | .present _ => acc.anyChange || decide (newValue i ≠ leaf.valueHash)
        | .absent _ => acc.anyChange || decide (newValue i ≠ H.emptyHash)) := by
  obtain ⟨m', hm', hs⟩ := ok_bind_iff.mp hs
  rw [orPanic_eq_ok, hm] at hm'
  cases hm'
  by_cases hv : newValue i = H.emptyHash
  · simp only [hv, ne_eq, not_true_eq_false, if_false] at hs
    cases hs
    cases m <;> simp [hv]
  · simp only [hv, ne_eq, not_false_eq_true, if_true] at hs
    obtain ⟨k, hk, hs⟩ := ok_bind_iff.mp hs
    cases hs
    cases m <;> simp [hv]

theorem scanned_scanMember {leaf : Leaf D} {idxs : List Nat} {acc acc' : UpdateScan D} {i : Nat}
    (h : Scanned H p leaf newValue idxs acc) (hs : p.scanMember H leaf newValue acc i = .ok acc') :
    Scanned H p leaf newValue (idxs ++ [i]) acc' := by
  have hscan := hs
  obtain ⟨m, hm, hs⟩ := ok_bind_iff.mp hs
  rw [orPanic_eq_ok] at hm
  obtain ⟨hw, hn, hc⟩ := scanMember_flags hm hscan
  have buffer : acc'.buffer = acc.buffer ++ [(p.queriedKey i, newValue i)].filter
      fun u => decide (u.2 ≠ H.emptyHash) := by
    by_cases hv : newValue i = H.emptyHash
    · simp only [hv, ne_eq, not_true_eq_false, if_false] at hs
      cases hs
      cases m <;> simp [hv]
    · simp only [hv, ne_eq, not_false_eq_true, if_true] at hs
      obtain ⟨k, hk, hs⟩ := ok_bind_iff.mp hs
      cases hs
      rw [key, okOr_eq_ok] at hk
      cases m <;> simp [hv, queriedKey, hk]
  cases m with
  | present pos =>
    refine ⟨by rw [buffer, h.buffer]; simp, by simp [hw], ?_, ?_, ?_⟩
    · intro v hv
      rw [hw] at hv
      exact ⟨i, by simp, pos, hm, (Option.some.inj hv).symm⟩
    · rw [hn, h.needsSynthesis]
      simp [or_and_right, exists_or, hm]
    · rw [hc, hn, Bool.or_eq_true, h.anyChange]
      simp [or_and_right, exists_or, hm, or_assoc]
  | absent pos =>
    refine ⟨by rw [buffer, h.buffer]; simp, ?_, ?_, ?_, ?_⟩
    · intro hv j hj
      rcases List.mem_append.mp hj with hj | hj
      · exact h.witness_none (hw.symm.trans hv) j hj
      · obtain rfl := List.mem_singleton.mp hj
        simp [hm]
    · intro v hv
      obtain ⟨j, hj, q, hq⟩ := h.witness_some v (hw.symm.trans hv)
      exact ⟨j, List.mem_append_left _ hj, q, hq⟩
    · rw [hn, Bool.or_eq_true, h.needsSynthesis]
      simp [or_and_right, exists_or, hm]
    · rw [hc, hn, Bool.or_eq_true, h.anyChange]
      simp [or_and_right, exists_or, hm, or_assoc, or_comm, or_left_comm]

theorem scanned_foldlM {leaf : Leaf D} {idxs : List Nat} {acc : UpdateScan D}
    (h : idxs.foldlM (p.scanMember H leaf newValue) ⟨[], none, false, false⟩ = .ok acc) :
    Scanned H p leaf newValue idxs acc := by
  induction idxs using List.reverseRecOn generalizing acc with
  | nil =>
    cases h
    constructor <;> simp
  | append_singleton idxs i ih =>
    rw [List.foldlM_append] at h
    obtain ⟨acc₁, h₁, h⟩ := ok_bind_iff.mp h
    simp only [List.foldlM_cons, List.foldlM_nil, bind_pure] at h
    exact scanned_scanMember (ih h₁) h

/-- The members at one leaf, as `member` resolves them. -/
structure Resolved (p : Proof D) (pos : Nat) (idxs : List Nat) : Prop where
  distinct : (idxs.map p.queriedKey).Nodup
  path : ∀ i ∈ idxs, ProofTree.SharesPath p.depthAt p.keyAt (p.queriedKey i) pos
  kind : ∀ i ∈ idxs,
    (p.memberships[i]? = some (.present pos) ∧ p.queriedKey i = p.keyAt pos) ∨
    (p.memberships[i]? = some (.absent pos) ∧ p.queriedKey i ≠ p.keyAt pos)

/-- The writes the members at a leaf ask for. -/
def updatesOf (p : Proof D) (newValue : Nat → D) (idxs : List Nat) : List (Key × D) :=
  idxs.map fun i => (p.queriedKey i, newValue i)

theorem nodup_row (H : Hasher D) (key : Nat → Key) (val : Nat → D) (pos : Nat) :
    ((ProofTree.row H key val pos).map Prod.fst).Nodup := by
  unfold ProofTree.row
  split <;> simp

section LeafPair

variable {pos : Nat} {idxs : List Nat}

omit [DecidableEq D] in
theorem mem_updatesOf {u : Key × D} :
    u ∈ p.updatesOf newValue idxs ↔ ∃ i ∈ idxs, u = (p.queriedKey i, newValue i) := by
  simp [updatesOf, eq_comm]

omit [DecidableEq D] in
theorem Resolved.nodup_updates (res : Resolved p pos idxs) :
    ((p.updatesOf newValue idxs).map Prod.fst).Nodup := by
  rw [updatesOf, List.map_map]
  exact res.distinct

omit [DecidableEq D] in
theorem mem_fst_updatesOf {k : Key} :
    k ∈ (p.updatesOf newValue idxs).map Prod.fst ↔ ∃ i ∈ idxs, p.queriedKey i = k := by
  simp [updatesOf]

/-- The updated entries of a leaf stay on its path. -/
theorem Resolved.path_updated (res : Resolved p pos idxs) :
    ∀ e ∈ applyUpdates H (p.updatesOf newValue idxs) (ProofTree.row H p.keyAt (p.valueAt H) pos),
      ProofTree.SharesPath p.depthAt p.keyAt e.1 pos := by
  intro e he i hi
  rcases mem_applyUpdates.mp he with ⟨he, _⟩ | ⟨hu, _⟩
  · rw [(ProofTree.mem_row.mp he).1]
  · obtain ⟨j, hj, rfl⟩ := mem_updatesOf.mp hu
    exact res.path j hj i hi

theorem Resolved.segment_updated (res : Resolved p pos idxs) {n : Nat}
    (hn : p.depthAt pos + n = 256) :
    Segment H n (applyUpdates H (p.updatesOf newValue idxs)
      (ProofTree.row H p.keyAt (p.valueAt H) pos)) where
  bound := by omega
  live := live_applyUpdates fun e he => by obtain ⟨rfl, hv⟩ := ProofTree.mem_row.mp he; exact hv
  nodup := nodup_applyUpdates res.nodup_updates (nodup_row ..)
  agree e he e' he' i hi := by
    rw [res.path_updated e he i (by omega), res.path_updated e' he' i (by omega)]

/-- When no foreign key is created, the leaf keeps its own key with the value
its present member writes, if there is one. -/
theorem canon_single (res : Resolved p pos idxs) {n : Nat} {value : D}
    (noCreate : ∀ i ∈ idxs, p.memberships[i]? = some (.absent pos) → newValue i = H.emptyHash)
    (own : ∀ i ∈ idxs, p.memberships[i]? = some (.present pos) → newValue i = value)
    (untouched : (∀ i ∈ idxs, p.memberships[i]? ≠ some (.present pos)) → value = p.valueAt H pos) :
    canon H n (applyUpdates H (p.updatesOf newValue idxs)
      (ProofTree.row H p.keyAt (p.valueAt H) pos)) = HashedNode.leaf H (p.keyAt pos) value := by
  have single : canon H n (ProofTree.row H p.keyAt (fun _ => value) pos) =
      HashedNode.leaf H (p.keyAt pos) value := by
    by_cases dead : value = H.emptyHash <;> simp [ProofTree.row, dead]
  rw [← single]
  refine canon_congr (nodup_applyUpdates res.nodup_updates (nodup_row ..)) (nodup_row ..)
    fun e => ?_
  rw [mem_applyUpdates, mem_fst_updatesOf, mem_updatesOf, ProofTree.mem_row, ProofTree.mem_row]
  by_cases present : ∃ i ∈ idxs, p.memberships[i]? = some (.present pos)
  · obtain ⟨j, hj, hjp⟩ := present
    have hjk : p.queriedKey j = p.keyAt pos := by
      rcases res.kind j hj with h | h
      · exact h.2
      · rw [hjp] at h; cases h.1
    constructor
    · rintro (⟨⟨rfl, _⟩, fresh⟩ | ⟨⟨i, hi, rfl⟩, hv⟩)
      · exact absurd ⟨j, hj, hjk⟩ fresh
      · rcases res.kind i hi with ⟨hp, hk⟩ | ⟨ha, _⟩
        · exact ⟨by rw [hk, own i hi hp], by rwa [← own i hi hp]⟩
        · exact absurd (noCreate i hi ha) hv
    · rintro ⟨rfl, hv⟩
      exact .inr ⟨⟨j, hj, by rw [hjk, own j hj hjp]⟩, hv⟩
  · have absent : ∀ i ∈ idxs, p.memberships[i]? ≠ some (.present pos) :=
      fun i hi hp => present ⟨i, hi, hp⟩
    rw [untouched absent]
    constructor
    · rintro (⟨he, _⟩ | ⟨⟨i, hi, rfl⟩, hv⟩)
      · exact he
      · rcases res.kind i hi with ⟨hp, _⟩ | ⟨ha, _⟩
        · exact absurd hp (absent i hi)
        · exact absurd (noCreate i hi ha) hv
    · rintro ⟨rfl, hv⟩
      refine .inl ⟨⟨rfl, hv⟩, ?_⟩
      rintro ⟨i, hi, hk⟩
      rcases res.kind i hi with ⟨hp, _⟩ | ⟨_, hne⟩
      · exact absent i hi hp
      · exact hne hk

/-- The entries collected for synthesis are the updated entries of the leaf. -/
theorem canon_multiple (res : Resolved p pos idxs) {n : Nat} (hn : p.depthAt pos + n = 256)
    {leaf : Leaf D} (hl : p.leaves[pos]? = some leaf) {acc : UpdateScan D}
    (scan : Scanned H p leaf newValue idxs acc) {entries : List (Key × D)}
    (perm : entries.Perm (if acc.newWitnessValue.isNone && decide (leaf.valueHash ≠ H.emptyHash)
      then acc.buffer ++ [(p.keyAt pos, leaf.valueHash)] else acc.buffer))
    (sorted : entries.Pairwise fun a b => a.1 ≤ b.1) :
    subtreeHash H n entries (p.depthAt pos) =
      .ok (canon H n (applyUpdates H (p.updatesOf newValue idxs)
        (ProofTree.row H p.keyAt (p.valueAt H) pos))) := by
  have hval : p.valueAt H pos = leaf.valueHash := by simp [valueAt, hl]
  have same : entries.Perm (applyUpdates H (p.updatesOf newValue idxs)
      (ProofTree.row H p.keyAt (p.valueAt H) pos)) := by
    refine perm.trans ?_
    rw [scan.buffer, applyUpdates, ProofTree.row, hval]
    by_cases dead : leaf.valueHash = H.emptyHash
    · simp [dead, updatesOf]
    · cases hw : acc.newWitnessValue with
      | none =>
        have fresh : p.keyAt pos ∉ (p.updatesOf newValue idxs).map Prod.fst := by
          rw [mem_fst_updatesOf]
          rintro ⟨i, hi, hk⟩
          rcases res.kind i hi with ⟨hp, _⟩ | ⟨_, hne⟩
          · exact scan.witness_none hw i hi pos hp
          · exact hne hk
        simp only [Option.isNone_none, dead, ne_eq, not_false_eq_true, decide_true, Bool.and_self,
          if_true, if_false, List.filter_cons_of_pos, fresh, List.filter_nil]
        exact List.perm_append_comm
      | some v =>
        obtain ⟨i, hi, q, hp, _⟩ := scan.witness_some v hw
        have taken : p.keyAt pos ∈ (p.updatesOf newValue idxs).map Prod.fst := by
          rw [mem_fst_updatesOf]
          rcases res.kind i hi with ⟨_, hk⟩ | ⟨ha, _⟩
          · exact ⟨i, hi, hk⟩
          · rw [hp] at ha; cases ha
        have gone : [(p.keyAt pos, leaf.valueHash)].filter
            (fun e => decide (e.1 ∉ (p.updatesOf newValue idxs).map Prod.fst)) = [] :=
          List.filter_eq_nil_iff.mpr (by simpa using taken)
        simp only [Option.isNone_some, Bool.false_and, Bool.false_eq_true, if_false, dead, gone,
          List.nil_append]
        exact List.Perm.refl _
  have seg := (res.segment_updated hn).perm same.symm
  rw [show p.depthAt pos = 256 - n by omega, subtreeHash_eq seg sorted, canon_perm same]

/-- The paired summaries of one leaf: its pre-state row and the canonical
summary of the updated row. -/
theorem leafPair_eq_ok (res : Resolved p pos idxs) {n : Nat} (hn : p.depthAt pos + n = 256)
    {prev post : HashedNode D} (h : p.leafPair H pos idxs newValue = .ok (prev, post)) :
    prev = ProofTree.leafNode H p.keyAt (p.valueAt H) pos ∧
      post = canon H n (applyUpdates H (p.updatesOf newValue idxs)
        (ProofTree.row H p.keyAt (p.valueAt H) pos)) := by
  obtain ⟨leaf, hl, h⟩ := ok_bind_iff.mp h
  obtain ⟨leafKey, hk, h⟩ := ok_bind_iff.mp h
  obtain ⟨upd, hu, h⟩ := ok_bind_iff.mp h
  rw [Proof.leaf, okOr_eq_ok] at hl
  rw [Proof.leafKey, Proof.key, okOr_eq_ok] at hk
  have hkey : p.keyAt pos = leafKey := by simp [keyAt, hl, hk]
  have hval : p.valueAt H pos = leaf.valueHash := by simp [valueAt, hl]
  have hdepth : p.depthAt pos = leaf.depth := by simp [depthAt, hl]
  obtain ⟨acc, hacc, hu⟩ := ok_bind_iff.mp hu
  have scan := scanned_foldlM hacc
  have presentPos : ∀ i ∈ idxs, ∀ q, p.memberships[i]? = some (.present q) → q = pos := by
    intro i hi q hq
    rcases res.kind i hi with ⟨hp, _⟩ | ⟨ha, _⟩
    · rw [hp] at hq; cases hq; rfl
    · rw [ha] at hq; cases hq
  have noCreate : acc.needsSynthesis = false → ∀ i ∈ idxs,
      p.memberships[i]? = some (.absent pos) → newValue i = H.emptyHash := by
    intro hs i hi ha
    by_contra hv
    rw [scan.needsSynthesis.mpr ⟨i, hi, pos, ha, hv⟩] at hs
    cases hs
  rw [ProofTree.leafNode, hkey, hval]
  cases hc : acc.anyChange with
  | false =>
    have still : acc.needsSynthesis = false := by
      by_contra hs
      rw [scan.anyChange.mpr (.inl (by simpa using hs))] at hc
      cases hc
    simp only [hc, Bool.not_false, if_true] at hu
    cases hu
    cases h
    refine ⟨rfl, ?_⟩
    rw [← hkey, ← hval]
    refine (canon_single res (noCreate still) (fun i hi hp => ?_) fun _ => rfl).symm
    by_contra hv
    rw [scan.anyChange.mpr (.inr ⟨i, hi, pos, hp, hval ▸ hv⟩)] at hc
    cases hc
  | true =>
    simp only [hc, Bool.not_true, Bool.false_eq_true, if_false] at hu
    cases hs : acc.needsSynthesis with
    | true =>
      simp only [hs, if_true] at hu
      cases hu
      obtain ⟨node, hnode, h⟩ := ok_bind_iff.mp h
      cases h
      refine ⟨rfl, ?_⟩
      rw [← hdepth, show DEPTH - p.depthAt pos = n by rw [DEPTH]; omega, canon_multiple res hn hl
        scan (hkey ▸ sortByKey_perm _) ?_] at hnode
      · exact (Except.ok.inj hnode).symm
      · exact pairwise_sortByKey _
    | false =>
      simp only [hs, Bool.false_eq_true, if_false] at hu
      cases hu
      cases h
      refine ⟨rfl, ?_⟩
      rw [← hkey]
      refine (canon_single res (noCreate hs) (fun i hi hp => ?_) fun absent => ?_).symm
      · cases hw : acc.newWitnessValue with
        | none => exact absurd hp (scan.witness_none hw i hi pos)
        | some v =>
          obtain ⟨j, hj, q, hq, rfl⟩ := scan.witness_some v hw
          have keys : p.queriedKey i = p.queriedKey j := by
            obtain rfl := presentPos j hj q hq
            rcases res.kind i hi with ⟨_, hk⟩ | ⟨ha, _⟩
            · rcases res.kind j hj with ⟨_, hk'⟩ | ⟨ha, _⟩
              · rw [hk, hk']
              · rw [hq] at ha; cases ha
            · rw [hp] at ha; cases ha
          rw [List.inj_on_of_nodup_map res.distinct hi hj keys]
          rfl
      · cases hw : acc.newWitnessValue with
        | none => exact hval.symm
        | some v =>
          obtain ⟨j, hj, q, hq, _⟩ := scan.witness_some v hw
          obtain rfl := presentPos j hj q hq
          exact absurd hq (absent j hj)

theorem scanMember_ok {leaf : Leaf D} {acc : UpdateScan D} {i : Nat} {m : Membership}
    (hms : p.memberships[i]? = some m) (hk : newValue i ≠ H.emptyHash → ∃ k, p.keys[i]? = some k) :
    ∃ acc', p.scanMember H leaf newValue acc i = .ok acc' := by
  unfold scanMember
  rw [hms]
  by_cases hv : newValue i = H.emptyHash
  · simp only [hv, ne_eq, not_true_eq_false, if_false]
    exact ⟨_, rfl⟩
  · obtain ⟨k, hk⟩ := hk hv
    rw [Proof.key, hk]
    simp only [hv, ne_eq, not_false_eq_true, if_true]
    exact ⟨_, rfl⟩

theorem scanMembers_ok {leaf : Leaf D} {acc : UpdateScan D} (hms : ∀ i ∈ idxs, ∃ m, p.memberships[i]? = some m)
    (hk : ∀ i ∈ idxs, newValue i ≠ H.emptyHash → ∃ k, p.keys[i]? = some k) :
    ∃ acc', idxs.foldlM (p.scanMember H leaf newValue) acc = .ok acc' := by
  induction idxs generalizing acc with
  | nil => exact ⟨acc, rfl⟩
  | cons i idxs ih =>
    obtain ⟨m, hm⟩ := hms i (by simp)
    obtain ⟨acc₁, h₁⟩ : ∃ acc₁, p.scanMember H leaf newValue acc i = .ok acc₁ :=
      scanMember_ok hm (hk i (by simp))
    obtain ⟨acc₂, h₂⟩ : ∃ acc₂, idxs.foldlM (p.scanMember H leaf newValue) acc₁ = .ok acc₂ :=
      ih (fun j hj => hms j (List.mem_cons_of_mem _ hj)) fun j hj => hk j (List.mem_cons_of_mem _ hj)
    exact ⟨acc₂, by rw [List.foldlM_cons]; exact ok_bind_iff.mpr ⟨acc₁, h₁, h₂⟩⟩

/-- A leaf in range with resolved members has paired summaries. -/
theorem leafPair_ok (res : Resolved p pos idxs) {n : Nat} (hn : p.depthAt pos + n = 256)
    {leaf : Leaf D} {k : Key} (hl : p.leaves[pos]? = some leaf)
    (hk : p.keys[leaf.keyIdx]? = some k) (hq : ∀ i ∈ idxs, ∃ k, p.keys[i]? = some k) :
    p.leafPair H pos idxs newValue =
      .ok (ProofTree.leafNode H p.keyAt (p.valueAt H) pos,
        canon H n (applyUpdates H (p.updatesOf newValue idxs)
          (ProofTree.row H p.keyAt (p.valueAt H) pos))) := by
  have hkey : p.keyAt pos = k := by simp [keyAt, hl, hk]
  have hdepth : p.depthAt pos = leaf.depth := by simp [depthAt, hl]
  obtain ⟨acc, hacc⟩ : ∃ acc, idxs.foldlM (p.scanMember H leaf newValue) ⟨[], none, false, false⟩ =
      .ok acc := by
    refine scanMembers_ok (fun i hi => ?_) fun i hi _ => hq i hi
    rcases res.kind i hi with h | h
    · exact ⟨_, h.1⟩
    · exact ⟨_, h.1⟩
  -- the only step that can fail is the synthesis of a subtree
  obtain ⟨upd, hupd, hsynth⟩ : ∃ upd, p.classifyLeafUpdate H leaf k idxs newValue = .ok upd ∧
      ∀ entries, upd = .multiple entries →
        ∃ post, subtreeHash H (DEPTH - leaf.depth) entries leaf.depth = .ok post := by
    cases hc : acc.anyChange with
    | false =>
      exact ⟨.unchanged, ok_bind_iff.mpr ⟨acc, hacc, by rw [hc]; rfl⟩, by simp⟩
    | true =>
      cases hs : acc.needsSynthesis with
      | false =>
        exact ⟨.single (acc.newWitnessValue.getD leaf.valueHash),
          ok_bind_iff.mpr ⟨acc, hacc, by rw [hc, hs]; rfl⟩, by simp⟩
      | true =>
        refine ⟨_, ok_bind_iff.mpr ⟨acc, hacc, by rw [hc, hs]; rfl⟩, fun entries h => ?_⟩
        cases h
        rw [← hdepth, show DEPTH - p.depthAt pos = n by rw [DEPTH]; omega]
        exact ⟨_, canon_multiple res hn hl (scanned_foldlM hacc) (hkey ▸ sortByKey_perm _)
          (pairwise_sortByKey _)⟩
  obtain ⟨⟨prev, post⟩, hr⟩ : ∃ r, p.leafPair H pos idxs newValue = .ok r := by
    unfold leafPair leafKey Proof.leaf Proof.key
    rw [hl]
    simp only [ok_bind_iff, okOr_eq_ok]
    cases upd with
    | unchanged | single v => exact ⟨_, leaf, rfl, k, hk, _, hupd, rfl⟩
    | multiple entries =>
      obtain ⟨post, hpost⟩ := hsynth entries rfl
      exact ⟨_, leaf, rfl, k, hk, _, hupd, ok_bind_iff.mpr ⟨post, hpost, rfl⟩⟩
  obtain ⟨hprev, hpost⟩ := leafPair_eq_ok res hn hr
  rw [hr, ← hprev, ← hpost]

end LeafPair

end Proof
end Vprogs.Smt
