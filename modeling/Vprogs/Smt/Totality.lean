import Vprogs.Smt.Wire

/-!
What an adversarial proof can do to the verifier. Decoding relates none of the tables
to each other. Membership queries check every index they use; the walk checks leaves
and siblings but reads a leaf's key without looking at the size of the key table, and
the synthesis of a subtree relies on its entries being told apart before the last
level. Conditions on the tables exclude both, and for a proof whose root is computed
they are also needed.
-/
namespace Vprogs.Smt

/-- The error names a field of the wire format. -/
def IsDecode : CodecError → Prop
  | .decode _ => True
  | .zeroCopy _ => False

namespace Proof

section Tables
variable {D : Type} (p : Proof D)

/-- Every leaf names a key of the key table. -/
def KeysInTable : Prop := ∀ leaf ∈ p.leaves, leaf.keyIdx < p.keys.length

/-- The membership points at the row and has a key. -/
def Points (i pos : Nat) : Prop :=
  i < p.keys.length ∧ (p.memberships[i]?).map Membership.leafPos = some pos

/-- An absent key of the table is claimed at the row, so that writes may add entries to it. -/
def Grows (pos : Nat) : Prop :=
  ∃ i < p.memberships.length, i < p.keys.length ∧ p.memberships[i]? = some (.absent pos)

instance (i pos : Nat) : Decidable (p.Points i pos) := inferInstanceAs (Decidable (_ ∧ _))

instance (pos : Nat) : Decidable (p.Grows pos) := inferInstanceAs (Decidable (∃ i, i < _ ∧ _))

/-- The keys at a row that grows lie on the path of its own key. -/
def MembersOnPath : Prop :=
  ∀ pos < p.leaves.length, p.Grows pos → ∀ i < p.memberships.length, p.Points i pos →
    ProofTree.SharesPath p.depthAt p.keyAt (p.queriedKey i) pos

/-- The keys at a row that grows are distinct, also from the row's own key where the row
keeps its value. -/
structure MembersApart (H : Hasher D) : Prop where
  distinct : ∀ pos < p.leaves.length, p.Grows pos → ∀ i < p.memberships.length,
    ∀ j < p.memberships.length, p.Points i pos → p.Points j pos →
      p.queriedKey i = p.queriedKey j → i = j
  foreign : ∀ pos < p.leaves.length, p.Grows pos → p.valueAt H pos ≠ H.emptyHash →
    (∀ i < p.memberships.length, p.memberships[i]? ≠ some (.present pos)) →
    ∀ i < p.memberships.length, p.Points i pos → p.queriedKey i ≠ p.keyAt pos

end Tables

section Walk
variable {D T : Type} {p : Proof D} {s : Summarizer D T} {pos rem start fin level : Nat}
  {c c' : Cursor}

theorem KeysInTable.key (keys : p.KeysInTable) (h : pos < p.leaves.length) :
    ∃ leaf key, p.leaves[pos]? = some leaf ∧ p.keys[leaf.keyIdx]? = some key :=
  ⟨_, _, List.getElem?_eq_getElem h, List.getElem?_eq_getElem (keys _ (List.getElem_mem h))⟩

theorem reports_leafBit (keys : p.KeysInTable) (h : pos < p.leaves.length) :
    Reports IsDecode (p.leafBit pos level) := by
  obtain ⟨leaf, key, hleaf, hkey⟩ := keys.key h
  exact .of_eq_ok (ok_bind_iff.mpr ⟨leaf, orPanic_eq_ok.mpr hleaf,
    ok_bind_iff.mpr ⟨key, orPanic_eq_ok.mpr hkey, rfl⟩⟩)

theorem reports_splitPoint (keys : p.KeysInTable) (hfin : fin ≤ p.leaves.length) :
    Reports IsDecode (p.splitPoint start fin level) := by
  refine reports_bind.mpr ⟨reports_partitionPointM fun i hi => ?_, fun _ _ => trivial⟩
  exact reports_bind.mpr ⟨reports_leafBit keys (by omega), fun _ _ => trivial⟩

theorem reports_terminalValue (hlt : start ≠ fin → start < p.leaves.length) (hlev : level ≤ DEPTH)
    (hleaf : ∀ pos < p.leaves.length, p.depthAt pos ≤ DEPTH → Reports IsDecode (s.leafHashFn pos)) :
    Reports IsDecode (p.terminalValue s start fin level) := by
  unfold terminalValue
  split
  · trivial
  · next hne =>
    have hin := hlt hne
    refine reports_bind.mpr ⟨?_, fun b hb => ?_⟩
    · unfold atShortcutDepth
      split
      · trivial
      · refine reports_bind.mpr ⟨reports_orPanic.mpr ⟨_, List.getElem?_eq_getElem hin⟩,
          fun leaf _ => ?_⟩
        split <;> trivial
    · cases b with
      | true =>
        simp only [if_true]
        have hdepth := (atShortcutDepth_true hb).2
        exact reports_bind.mpr ⟨hleaf start hin (by omega), fun _ _ => trivial⟩
      | false =>
        simp only [Bool.false_eq_true, if_false]
        split <;> trivial

/-- With every key in the table, the walk aborts only if a leaf does. -/
theorem reports_traverse (keys : p.KeysInTable)
    (hleaf : ∀ pos < p.leaves.length, p.depthAt pos ≤ DEPTH → Reports IsDecode (s.leafHashFn pos))
    (hle : start ≤ fin) (hfin : fin ≤ p.leaves.length) (hlev : level + rem = DEPTH) :
    Reports IsDecode (p.traverse s rem start fin level c) := by
  induction rem generalizing start fin level c with
  | zero =>
    rw [traverse, reports_bind]
    refine ⟨reports_terminalValue (fun hne => by omega) (by omega) hleaf, fun v _ => ?_⟩
    cases v <;> trivial
  | succ rem ih =>
    rw [traverse, reports_bind]
    refine ⟨reports_terminalValue (fun hne => by omega) (by omega) hleaf, fun v hv => ?_⟩
    cases v with
    | some v => trivial
    | none =>
      have hlt : start < fin := by
        have := (terminalValue_eq_none.mp hv).1
        omega
      simp only
      split
      · refine reports_bind.mpr ⟨reports_splitPoint keys hfin, fun mid hmid => ?_⟩
        obtain ⟨hstart, hend⟩ := splitPoint_bounds hle hmid
        refine reports_bind.mpr ⟨ih hstart (by omega) (by omega), fun left _ => ?_⟩
        exact reports_bind.mpr ⟨ih hend hfin (by omega), fun _ _ => trivial⟩
      · refine reports_bind.mpr ⟨?_, fun goesLeft _ => reports_bind.mpr ⟨?_, fun sibling _ => ?_⟩⟩
        · exact reports_bind.mpr ⟨reports_leafBit keys (by omega), fun _ _ => trivial⟩
        · exact reports_bind.mpr ⟨.okOr trivial, fun _ _ => trivial⟩
        · exact reports_bind.mpr ⟨ih hle hfin (by omega), fun _ _ => trivial⟩

/-- A walk over a shape that exists aborts as soon as one of its leaves does, if no leaf
reports an error. -/
theorem reports_leaves {t : ProofTree D}
    (hshape : p.traverse ProofTree.summarizer rem start fin level c = .ok (t, c'))
    (noErr : ∀ pos ∈ t.positions, ∀ e, s.leafHashFn pos ≠ .error (.err e))
    (h : Reports IsDecode (p.traverse s rem start fin level c)) :
    (∀ pos ∈ t.positions, Reports IsDecode (s.leafHashFn pos)) ∧
      ∃ x, p.traverse s rem start fin level c = .ok (x, c') := by
  induction rem using Nat.strong_induction_on generalizing start fin level c c' t with
  | _ rem ih =>
    obtain ⟨⟨rfl, rfl⟩ | ⟨hne, hd, hx⟩, rfl⟩ | ⟨go, n, rfl, hstep⟩ := traverse_eq_ok.mp hshape
    · exact ⟨by simp [ProofTree.summarizer, ProofTree.positions],
        _, traverse_eq_ok.mpr (.inl ⟨.inl ⟨rfl, rfl⟩, rfl⟩)⟩
    · cases hx
      have mem : start ∈ (ProofTree.leaf start : ProofTree D).positions := by
        simp [ProofTree.positions]
      have hleaf : Reports IsDecode (s.leafHashFn start) := by
        rw [traverse.eq_def, reports_bind, terminalValue, if_neg hne, hd, ok_bind, if_pos rfl] at h
        exact (reports_bind.mp h.1).1
      obtain ⟨x, hx⟩ := hleaf.exists_ok (noErr start mem)
      refine ⟨fun pos hp => ?_, x, traverse_eq_ok.mpr (.inl ⟨.inr ⟨hne, hd, hx⟩, rfl⟩)⟩
      rw [List.mem_singleton.mp hp]
      exact hleaf
    · rw [traverse.eq_def, terminalValue_eq_none.mpr go, ok_bind] at h
      rcases hstep with ⟨hb, mid, left, c₁, right, hMid, hLeft, hRight, rfl⟩ |
        ⟨hb, g, sib, c₁, child, hGoes, hSib, hChild, rfl⟩
      · simp only [hb, if_true, reports_bind] at h
        obtain ⟨reportsLeft, hrest⟩ := h.2 mid hMid
        obtain ⟨leavesLeft, x, hx⟩ := ih n n.lt_succ_self hLeft
          (fun pos hp => noErr pos (List.mem_append_left _ hp)) reportsLeft
        obtain ⟨leavesRight, y, hy⟩ := ih n n.lt_succ_self hRight
          (fun pos hp => noErr pos (List.mem_append_right _ hp)) (hrest _ hx).1
        exact ⟨fun pos hp => (List.mem_append.mp hp).elim (leavesLeft pos) (leavesRight pos),
          _, traverse_eq_ok.mpr (.inr ⟨go, n, rfl, .inl ⟨hb, mid, x, c₁, y, hMid, hx, hy, rfl⟩⟩)⟩
      · simp only [hb, Bool.false_eq_true, if_false, reports_bind] at h
        obtain ⟨leavesChild, x, hx⟩ := ih n n.lt_succ_self hChild
          (fun pos hp => noErr pos (ProofTree.mem_positions_besideSibling.mpr hp))
          ((h.2 g hGoes).2 _ hSib).1
        exact ⟨fun pos hp => leavesChild pos (ProofTree.mem_positions_besideSibling.mp hp),
          _, traverse_eq_ok.mpr (.inr ⟨go, n, rfl, .inr ⟨hb, g, sib, c₁, x, hGoes, hSib, hx, rfl⟩⟩)⟩

/-- The walk never goes deeper than `DEPTH` levels: more levels change nothing. -/
theorem traverse_add (k : Nat) (h : DEPTH ≤ level + rem) :
    p.traverse s (rem + k) start fin level c = p.traverse s rem start fin level c := by
  induction rem generalizing start fin level c with
  | zero =>
    have hstops : p.terminalValue s start fin level ≠ .ok none := fun hnone => by
      have := (terminalValue_eq_none.mp hnone).2.2
      omega
    rw [traverse.eq_def, traverse.eq_def p s 0]
    rcases hv : p.terminalValue s start fin level with _ | _ | _
    · rfl
    · exact absurd hv hstops
    · rfl
  | succ rem ih =>
    rw [Nat.add_right_comm, traverse.eq_def, traverse.eq_def p s (rem + 1)]
    simp only [ih (show DEPTH ≤ level + 1 + rem by omega)]

end Walk

section Synthesis
variable {D : Type} [DecidableEq D] (H : Hasher D) (p : Proof D)

/-- Every query returns a result or a decode error. -/
structure NeverCrashes : Prop where
  checkSortedQueriedKeys : Reports IsDecode p.checkSortedQueriedKeys
  member : ∀ i < p.memberships.length, Reports IsDecode (p.member i)
  root : Reports IsDecode (p.root H)
  computeRoots : ∀ newValue, Reports IsDecode (p.computeRoots H newValue)

variable {H} {p} {newValue : Nat → D} {rem pos depth i : Nat} {es : List (Key × D)}

/-- The synthesis reports no error. -/
theorem subtreeHash_ne_err (e : CodecError) : subtreeHash H rem es depth ≠ .error (.err e) := by
  induction rem generalizing es depth e with
  | zero => rcases es with _ | ⟨_, _ | _⟩ <;> rintro ⟨⟩
  | succ rem ih =>
    rcases es with _ | ⟨_, _ | _⟩
    · rintro ⟨⟩
    · rintro ⟨⟩
    · rw [subtreeHash]
      rcases hleft : subtreeHash H rem _ (depth + 1) with (e' | _) | left
      · exact absurd hleft (ih e')
      · rintro ⟨⟩
      · rcases hright : subtreeHash H rem _ (depth + 1) with (e' | _) | right
        · exact absurd hright (ih e')
        · rintro ⟨⟩
        · rintro ⟨⟩

/-- Entries on one path are told apart only if no two have the same key. -/
theorem nodup_of_reports_subtreeHash (bound : rem ≤ 256) (sorted : es.Pairwise fun a b => a.1 ≤ b.1)
    (agree : ∀ a ∈ es, ∀ b ∈ es, ∀ i < 256 - rem, a.1.getMsb i = b.1.getMsb i)
    (h : Reports IsDecode (subtreeHash H rem es (256 - rem))) : (es.map Prod.fst).Nodup := by
  induction rem generalizing es with
  | zero =>
    rcases es with _ | ⟨e, _ | ⟨e', rest⟩⟩
    · simp
    · simp
    · exact h.elim
  | succ rem ih =>
    by_cases two : 2 ≤ es.length
    · have parts := side_append_side_of_agree bound sorted fun a ha b hb i hi =>
        agree a ha b hb i (by omega)
      rw [subtreeHash_sides bound two parts] at h
      simp only [reports_bind] at h
      have nodup : ∀ b, Reports IsDecode (subtreeHash H rem (side rem b es) (256 - rem)) →
          ((side rem b es).map Prod.fst).Nodup := by
        intro b
        refine ih (by omega) (sorted.sublist List.filter_sublist) fun x hx y hy i hi => ?_
        obtain ⟨hx, hxb⟩ := mem_side.mp hx
        obtain ⟨hy, hyb⟩ := mem_side.mp hy
        obtain hlt | rfl : i < 255 - rem ∨ i = 255 - rem := by omega
        · exact agree x hx y hy i (by omega)
        · rw [hxb, hyb]
      obtain ⟨left, hleft⟩ := h.1.exists_ok subtreeHash_ne_err
      rw [← parts, List.map_append, List.nodup_append]
      refine ⟨nodup false h.1, nodup true (h.2 left hleft).1, ?_⟩
      -- the two sides differ in the bit that splits them
      intro k hk k' hk' same
      obtain ⟨x, hx, rfl⟩ := List.mem_map.mp hk
      obtain ⟨y, hy, rfl⟩ := List.mem_map.mp hk'
      have := (mem_side.mp hx).2
      rw [same, (mem_side.mp hy).2] at this
      cases this
    · rcases es with _ | ⟨e, _ | ⟨e', rest⟩⟩
      · simp
      · simp
      · simp at two

theorem reports_scanMember {leaf : Leaf D} {acc : UpdateScan D} (hi : i < p.memberships.length) :
    Reports IsDecode (p.scanMember H leaf newValue acc i) := by
  refine reports_bind.mpr ⟨reports_orPanic.mpr ⟨_, List.getElem?_eq_getElem hi⟩, fun m _ => ?_⟩
  simp only
  split
  · exact reports_bind.mpr ⟨Reports.okOr trivial, fun _ _ => trivial⟩
  · trivial

theorem reports_foldlM_scanMember {leaf : Leaf D} {idxs : List Nat} {acc : UpdateScan D}
    (h : ∀ i ∈ idxs, i < p.memberships.length) :
    Reports IsDecode (idxs.foldlM (p.scanMember H leaf newValue) acc) := by
  induction idxs generalizing acc with
  | nil => trivial
  | cons i idxs ih =>
    rw [List.foldlM_cons]
    refine reports_bind.mpr ⟨reports_scanMember (h i List.mem_cons_self), fun acc' _ => ?_⟩
    exact ih fun j hj => h j (List.mem_cons_of_mem i hj)

omit [DecidableEq D] in
theorem membersByLeaf_lt (hpos : pos < p.leaves.length) (hi : i ∈ p.membersByLeaf.at pos) :
    i < p.memberships.length := by
  rw [membersByLeaf, Buckets.ofPositions_at _ _ hpos] at hi
  have := List.mem_range.mp (List.mem_filter.mp hi).1
  rwa [List.length_map] at this


omit [DecidableEq D] in
theorem nodup_membersByLeaf (hpos : pos < p.leaves.length) : (p.membersByLeaf.at pos).Nodup := by
  rw [membersByLeaf, Buckets.ofPositions_at _ _ hpos]
  exact List.nodup_range.filter _

/-- The entries that an assignment gathers for synthesis at a leaf: the values written at
it, and its own entry unless a membership decides about that. -/
def gathered (H : Hasher D) (p : Proof D) (newValue : Nat → D) (pos : Nat) : List (Key × D) :=
  (p.updatesOf newValue (p.membersByLeaf.at pos)).filter (fun u => decide (u.2 ≠ H.emptyHash)) ++
    if p.valueAt H pos ≠ H.emptyHash ∧
      ∀ i ∈ p.membersByLeaf.at pos, p.memberships[i]? ≠ some (.present pos) then
      [(p.keyAt pos, p.valueAt H pos)] else []

theorem map_fst_gathered : (p.gathered H newValue pos).map Prod.fst =
    ((p.membersByLeaf.at pos).filter fun i => decide (newValue i ≠ H.emptyHash)).map p.queriedKey ++
      if p.valueAt H pos ≠ H.emptyHash ∧
        ∀ i ∈ p.membersByLeaf.at pos, p.memberships[i]? ≠ some (.present pos) then
        [p.keyAt pos] else [] := by
  rw [gathered, List.map_append, updatesOf, List.filter_map, List.map_map]
  split <;> rfl

theorem key_of_scan {leaf : Leaf D} {idxs : List Nat} {acc acc' : UpdateScan D}
    (h : idxs.foldlM (p.scanMember H leaf newValue) acc = .ok acc') :
    ∀ i ∈ idxs, newValue i ≠ H.emptyHash → i < p.keys.length := by
  induction idxs generalizing acc with
  | nil => simp
  | cons i idxs ih =>
    rw [List.foldlM_cons] at h
    obtain ⟨acc₁, h₁, h⟩ := ok_bind_iff.mp h
    intro j hj hv
    rcases List.mem_cons.mp hj with rfl | hj
    · obtain ⟨m, _, h₁⟩ := ok_bind_iff.mp h₁
      simp only [hv, ne_eq, not_false_eq_true, if_true] at h₁
      obtain ⟨k, hk, _⟩ := ok_bind_iff.mp h₁
      rw [Proof.key, okOr_eq_ok] at hk
      exact (List.getElem?_eq_some_iff.mp hk).1
    · exact ih h j hj hv

section Row

variable {leaf : Leaf D} {key : Key} (hpos : pos < p.leaves.length)
  (hleaf : p.leaves[pos]? = some leaf) (hkey : p.keys[leaf.keyIdx]? = some key)

include hpos

omit [DecidableEq D] in
theorem present_at {q : Nat} (hi : i ∈ p.membersByLeaf.at pos)
    (h : p.memberships[i]? = some (.present q)) : q = pos := by
  obtain ⟨ms, hms, hq⟩ := (mem_membersByLeaf hpos).mp hi
  cases hms.symm.trans h
  exact hq

omit [DecidableEq D] in
theorem absent_at {q : Nat} (hi : i ∈ p.membersByLeaf.at pos)
    (h : p.memberships[i]? = some (.absent q)) : q = pos := by
  obtain ⟨ms, hms, hq⟩ := (mem_membersByLeaf hpos).mp hi
  cases hms.symm.trans h
  exact hq

include hleaf hkey

/-- What a leaf that is synthesised has gathered. -/
theorem entries_of_classify {entries : List (Key × D)}
    (h : p.classifyLeafUpdate H leaf key (p.membersByLeaf.at pos) newValue = .ok (.multiple entries)) :
    (∃ i ∈ p.membersByLeaf.at pos, p.memberships[i]? = some (.absent pos) ∧
        newValue i ≠ H.emptyHash) ∧
      (∀ i ∈ p.membersByLeaf.at pos, newValue i ≠ H.emptyHash → i < p.keys.length) ∧
      entries.Perm (p.gathered H newValue pos) ∧ entries.Pairwise fun a b => a.1 ≤ b.1 := by
  obtain ⟨acc, hacc, h⟩ := ok_bind_iff.mp h
  have scan := scanned_foldlM hacc
  have hval : p.valueAt H pos = leaf.valueHash := by simp [valueAt, hleaf]
  have hkeyAt : p.keyAt pos = key := by simp [keyAt, hleaf, hkey]
  split at h
  · cases h
  split at h
  · next hs =>
    cases h
    obtain ⟨i, hi, q, hq, hv⟩ := scan.needsSynthesis.mp hs
    rw [absent_at hpos hi hq] at hq
    refine ⟨⟨i, hi, hq, hv⟩, key_of_scan hacc, (sortByKey_perm _).trans ?_, pairwise_sortByKey _⟩
    have none : acc.newWitnessValue.isNone = true ↔
        ∀ i ∈ p.membersByLeaf.at pos, p.memberships[i]? ≠ some (.present pos) := by
      cases hw : acc.newWitnessValue with
      | none => simpa using fun i hi => scan.witness_none hw i hi pos
      | some v =>
        obtain ⟨j, hj, q, hq, _⟩ := scan.witness_some v hw
        rw [present_at hpos hj hq] at hq
        simpa using ⟨j, hj, hq⟩
    rw [gathered, scan.buffer, hval, hkeyAt, updatesOf]
    by_cases own : leaf.valueHash ≠ H.emptyHash ∧
        ∀ i ∈ p.membersByLeaf.at pos, p.memberships[i]? ≠ some (.present pos)
    · rw [if_pos own, if_pos (by simp [none.mpr own.2, own.1])]
    · rw [if_neg own, if_neg (by rw [Bool.and_eq_true, none, decide_eq_true_eq, and_comm]; exact own),
        List.append_nil]
  · cases h

variable (leaf key) in
omit hleaf hkey in
theorem classify_ok
    (keys : ∀ i ∈ p.membersByLeaf.at pos, newValue i ≠ H.emptyHash → i < p.keys.length) :
    ∃ upd, p.classifyLeafUpdate H leaf key (p.membersByLeaf.at pos) newValue = .ok upd ∧
      ((∃ i ∈ p.membersByLeaf.at pos, p.memberships[i]? = some (.absent pos) ∧
        newValue i ≠ H.emptyHash) → ∃ entries, upd = .multiple entries) := by
  obtain ⟨acc, hacc⟩ : ∃ acc, (p.membersByLeaf.at pos).foldlM (p.scanMember H leaf newValue)
      ⟨[], none, false, false⟩ = .ok acc := by
    refine scanMembers_ok (fun i hi => ?_) fun i hi hv => ?_
    · obtain ⟨ms, hms, _⟩ := (mem_membersByLeaf hpos).mp hi
      exact ⟨ms, hms⟩
    · exact ⟨_, List.getElem?_eq_getElem (keys i hi hv)⟩
  have scan := scanned_foldlM hacc
  cases hc : acc.anyChange with
  | false =>
    refine ⟨.unchanged, ok_bind_iff.mpr ⟨acc, hacc, by rw [hc]; rfl⟩, ?_⟩
    rintro ⟨i, hi, ha, hv⟩
    rw [scan.anyChange.mpr (.inl (scan.needsSynthesis.mpr ⟨i, hi, pos, ha, hv⟩))] at hc
    cases hc
  | true =>
    cases hs : acc.needsSynthesis with
    | false =>
      refine ⟨.single (acc.newWitnessValue.getD leaf.valueHash),
        ok_bind_iff.mpr ⟨acc, hacc, by rw [hc, hs]; rfl⟩, ?_⟩
      rintro ⟨i, hi, ha, hv⟩
      rw [scan.needsSynthesis.mpr ⟨i, hi, pos, ha, hv⟩] at hs
      cases hs
    | true => exact ⟨_, ok_bind_iff.mpr ⟨acc, hacc, by rw [hc, hs]; rfl⟩, fun _ => ⟨_, rfl⟩⟩

omit [DecidableEq D] hleaf hkey in
theorem points_of_mem
    (keys : ∀ i ∈ p.membersByLeaf.at pos, newValue i ≠ H.emptyHash → i < p.keys.length)
    (hi : i ∈ p.membersByLeaf.at pos) (hv : newValue i ≠ H.emptyHash) : p.Points i pos := by
  obtain ⟨ms, hms, hq⟩ := (mem_membersByLeaf hpos).mp hi
  exact ⟨keys i hi hv, by simp [hms, hq]⟩

omit hleaf hkey in
/-- Everything gathered at a row that grows lies on the path of its key. -/
theorem agree_gathered (onPath : p.MembersOnPath) (grows : p.Grows pos)
    (keys : ∀ i ∈ p.membersByLeaf.at pos, newValue i ≠ H.emptyHash → i < p.keys.length) :
    ∀ a ∈ p.gathered H newValue pos, ∀ b ∈ p.gathered H newValue pos, ∀ i < p.depthAt pos,
      a.1.getMsb i = b.1.getMsb i := by
  have path : ∀ e ∈ p.gathered H newValue pos, ProofTree.SharesPath p.depthAt p.keyAt e.1 pos := by
    intro e he
    rcases List.mem_append.mp he with he | he
    · obtain ⟨hu, live⟩ := List.mem_filter.mp he
      obtain ⟨i, hi, rfl⟩ := mem_updatesOf.mp hu
      exact onPath pos hpos grows i (membersByLeaf_lt hpos hi)
        (points_of_mem hpos keys hi (by simpa using live))
    · split at he
      · obtain rfl := List.mem_singleton.mp he
        exact fun i _ => rfl
      · cases he
  intro a ha b hb i hi
  rw [path a ha i hi, path b hb i hi]

omit hpos hleaf hkey in
theorem live_gathered : ∀ e ∈ p.gathered H newValue pos, e.2 ≠ H.emptyHash := by
  intro e he
  rcases List.mem_append.mp he with he | he
  · simpa using (List.mem_filter.mp he).2
  · split at he
    · next own =>
      obtain rfl := List.mem_singleton.mp he
      exact own.1
    · cases he

omit hleaf hkey in
/-- Members that are apart are gathered under distinct keys. -/
theorem MembersApart.nodup_gathered (apart : p.MembersApart H) (grows : p.Grows pos)
    (keys : ∀ i ∈ p.membersByLeaf.at pos, newValue i ≠ H.emptyHash → i < p.keys.length) :
    ((p.gathered H newValue pos).map Prod.fst).Nodup := by
  rw [map_fst_gathered, List.nodup_append]
  refine ⟨?_, ?_, ?_⟩
  · refine (nodup_membersByLeaf hpos).filter _ |>.map_on fun i hi j hj same => ?_
    obtain ⟨hi, hv⟩ := List.mem_filter.mp hi
    obtain ⟨hj, hv'⟩ := List.mem_filter.mp hj
    exact apart.distinct pos hpos grows i (membersByLeaf_lt hpos hi) j (membersByLeaf_lt hpos hj)
      (points_of_mem hpos keys hi (by simpa using hv)) (points_of_mem hpos keys hj (by simpa using hv')) same
  · split <;> simp
  · intro k hk k' hk' same
    obtain ⟨i, hi, rfl⟩ := List.mem_map.mp hk
    obtain ⟨hi, hv⟩ := List.mem_filter.mp hi
    split at hk'
    · next own =>
      obtain rfl := List.mem_singleton.mp hk'
      refine apart.foreign pos hpos grows own.1 (fun j hj hp => ?_) i (membersByLeaf_lt hpos hi)
        (points_of_mem hpos keys hi (by simpa using hv)) same
      exact own.2 j ((mem_membersByLeaf hpos).mpr ⟨_, hp, rfl⟩) hp
    · cases hk'

/-- A leaf whose members are apart has a summary or reports an error. -/
theorem reports_leafPair (hdepth : p.depthAt pos ≤ DEPTH) (onPath : p.MembersOnPath)
    (apart : p.MembersApart H) :
    Reports IsDecode (p.leafPair H pos (p.membersByLeaf.at pos) newValue) := by
  have hd : p.depthAt pos = leaf.depth := by simp [depthAt, hleaf]
  have classified : Reports IsDecode
      (p.classifyLeafUpdate H leaf key (p.membersByLeaf.at pos) newValue) := by
    refine reports_bind.mpr ⟨reports_foldlM_scanMember fun i hi => membersByLeaf_lt hpos hi,
      fun acc _ => ?_⟩
    split
    · trivial
    · split <;> trivial
  simp only [leafPair, leafKey, Proof.leaf, Proof.key, hleaf, reports_bind, okOr_eq_ok]
  refine ⟨trivial, fun leaf' h => ?_⟩
  cases h
  rw [hkey]
  refine ⟨trivial, fun key' h => ?_⟩
  cases h
  refine ⟨classified, fun upd hupd => ?_⟩
  cases upd with
  | unchanged | single _ => trivial
  | multiple entries =>
    obtain ⟨⟨a, ha, habs, hav⟩, keys, perm, sorted⟩ := entries_of_classify hpos hleaf hkey hupd
    have grows : p.Grows pos := ⟨a, membersByLeaf_lt hpos ha, keys a ha hav, habs⟩
    have hrem : p.depthAt pos = 256 - (DEPTH - leaf.depth) := by
      rw [DEPTH] at hdepth ⊢
      omega
    have seg : Segment H (DEPTH - leaf.depth) entries := by
      refine Segment.perm ⟨Nat.sub_le _ _, live_gathered, apart.nodup_gathered hpos grows keys, ?_⟩ perm.symm
      rw [← hrem]
      exact agree_gathered hpos onPath grows keys
    have done := subtreeHash_eq seg sorted
    rw [← hrem, hd] at done
    exact reports_bind.mpr ⟨.of_eq_ok done, fun _ _ => trivial⟩

/-- With the keys of all writes in the table, a leaf reports no error. -/
theorem leafPair_ne_err
    (keys : ∀ i ∈ p.membersByLeaf.at pos, newValue i ≠ H.emptyHash → i < p.keys.length)
    (e : CodecError) : p.leafPair H pos (p.membersByLeaf.at pos) newValue ≠ .error (.err e) := by
  obtain ⟨upd, hupd, _⟩ := classify_ok (H := H) leaf key hpos keys
  unfold leafPair leafKey Proof.leaf Proof.key
  simp only [hleaf, okOr, ok_bind, hkey, hupd]
  cases upd with
  | unchanged | single _ => rintro ⟨⟩
  | multiple entries =>
    rcases hsub : subtreeHash H (DEPTH - leaf.depth) entries leaf.depth with (e' | _) | node
    · exact absurd hsub (subtreeHash_ne_err e')
    · simp only [hsub]
      rintro ⟨⟩
    · simp only [hsub]
      rintro ⟨⟩

/-- A leaf that grows and does not abort has gathered distinct keys. -/
theorem nodup_of_reports_leafPair (hdepth : p.depthAt pos ≤ DEPTH) (onPath : p.MembersOnPath)
    (keys : ∀ i ∈ p.membersByLeaf.at pos, newValue i ≠ H.emptyHash → i < p.keys.length)
    (absent : ∃ i ∈ p.membersByLeaf.at pos, p.memberships[i]? = some (.absent pos) ∧
      newValue i ≠ H.emptyHash)
    (h : Reports IsDecode (p.leafPair H pos (p.membersByLeaf.at pos) newValue)) :
    ((p.gathered H newValue pos).map Prod.fst).Nodup := by
  obtain ⟨upd, hupd, synthesised⟩ := classify_ok (H := H) leaf key hpos keys
  obtain ⟨entries, rfl⟩ := synthesised absent
  obtain ⟨a, ha, habs, hav⟩ := absent
  have grows : p.Grows pos := ⟨a, membersByLeaf_lt hpos ha, keys a ha hav, habs⟩
  obtain ⟨_, _, perm, sorted⟩ := entries_of_classify hpos hleaf hkey hupd
  have hd : p.depthAt pos = leaf.depth := by simp [depthAt, hleaf]
  have hrem : leaf.depth = 256 - (DEPTH - leaf.depth) := by
    rw [DEPTH] at hdepth ⊢
    omega
  unfold leafPair leafKey Proof.leaf Proof.key at h
  simp only [hleaf, okOr, ok_bind, hkey, hupd] at h
  have hsub := (reports_bind.mp h).1
  rw [← (perm.map Prod.fst).nodup_iff]
  have within : DEPTH - leaf.depth ≤ 256 := Nat.sub_le _ _
  refine nodup_of_reports_subtreeHash (H := H) within sorted ?_ (hrem ▸ hsub)
  intro x hx y hy i hi
  exact agree_gathered hpos onPath grows keys x (perm.mem_iff.mp hx) y (perm.mem_iff.mp hy) i
    (by omega)

end Row

omit [DecidableEq D] in
theorem reports_checkSortedQueriedKeys : Reports IsDecode p.checkSortedQueriedKeys := by
  unfold checkSortedQueriedKeys
  split
  · split <;> trivial
  · trivial

omit [DecidableEq D] in
theorem reports_member : Reports IsDecode (p.member i) := by
  refine reports_bind.mpr ⟨Reports.okOr trivial, fun m _ => ?_⟩
  cases m with
  | present leafIdx =>
    refine reports_bind.mpr ⟨Reports.okOr trivial, fun key _ =>
      reports_bind.mpr ⟨Reports.okOr trivial, fun leaf _ =>
        reports_bind.mpr ⟨Reports.okOr trivial, fun leafKey _ => ?_⟩⟩⟩
    split <;> trivial
  | absent leafIdx =>
    refine reports_bind.mpr ⟨Reports.okOr trivial, fun key _ =>
      reports_bind.mpr ⟨Reports.okOr trivial, fun leaf _ =>
        reports_bind.mpr ⟨Reports.okOr trivial, fun leafKey _ => ?_⟩⟩⟩
    split
    · trivial
    · split <;> trivial

/-- Tables that keep the walk in range and the members apart never crash the verifier. -/
theorem neverCrashes_of_tables (keys : p.KeysInTable) (onPath : p.MembersOnPath)
    (apart : p.MembersApart H) : p.NeverCrashes H where
  checkSortedQueriedKeys := reports_checkSortedQueriedKeys
  member _ _ := reports_member
  root := by
    refine reports_bind.mpr ⟨?_, fun _ _ => trivial⟩
    refine reports_traverse keys (fun pos _ _ => ?_) (Nat.zero_le _) (Nat.le_refl _) (by simp)
    exact reports_bind.mpr ⟨.okOr trivial, fun _ _ =>
      reports_bind.mpr ⟨.okOr trivial, fun _ _ => trivial⟩⟩
  computeRoots newValue := by
    refine reports_bind.mpr ⟨?_, fun _ _ => trivial⟩
    refine reports_traverse keys (fun pos hpos hdepth => ?_) (Nat.zero_le _) (Nat.le_refl _) (by simp)
    obtain ⟨leaf, key, hleaf, hkey⟩ := keys.key hpos
    exact reports_leafPair hpos hleaf hkey hdepth onPath apart

/-- A root is only computed when every leaf has its key in the table. -/
theorem keysInTable_of_root {d : D} (h : p.root H = .ok d) : p.KeysInTable := by
  obtain ⟨⟨node, c⟩, hw, _⟩ := ok_bind_iff.mp h
  obtain ⟨t, ht, hashed⟩ := traverse_follows_shape
    (fun _ t => ∀ pos ∈ t.positions, ∃ x, p.leafHash H pos = .ok x)
    (by simp [ProofTree.positions])
    (by
      intro pos x hx q hq
      rw [List.mem_singleton.mp hq]
      exact ⟨x, hx⟩)
    (fun _ _ _ _ hl hr pos hp => (List.mem_append.mp hp).elim (hl pos) (hr pos))
    (fun _ _ _ _ h pos hp => h pos (ProofTree.mem_positions_besideSibling.mp hp)) hw
  obtain ⟨_, positions, _⟩ := shape_spec (Nat.zero_le _) rfl ht
  intro leaf hleaf
  obtain ⟨pos, hpos, rfl⟩ := List.getElem_of_mem hleaf
  obtain ⟨x, hx⟩ := hashed pos (by rw [positions, List.mem_range'_1]; omega)
  obtain ⟨leaf, hl, hx⟩ := ok_bind_iff.mp hx
  obtain ⟨key, hk, _⟩ := ok_bind_iff.mp hx
  rw [Proof.leaf, okOr_eq_ok, List.getElem?_eq_getElem hpos] at hl
  rw [Proof.leafKey, Proof.key, okOr_eq_ok, ← Option.some.inj hl] at hk
  exact (List.getElem?_eq_some_iff.mp hk).1

/-- Writes the value at the marked memberships only. -/
def marking (H : Hasher D) (v : D) (marked : List Nat) (i : Nat) : D := if i ∈ marked then v else H.emptyHash

section Marking
variable {d v : D} {marked : List Nat}

omit [DecidableEq D] in
theorem mem_of_marking (h : marking H v marked i ≠ H.emptyHash) : i ∈ marked := by
  by_contra hi
  exact h (if_neg hi)

theorem marked_written (hv : v ≠ H.emptyHash) (hpos : pos < p.leaves.length)
    (points : ∀ i ∈ marked, p.Points i pos) : ∀ i ∈ marked, i ∈ (p.membersByLeaf.at pos).filter
      fun i => decide (marking H v marked i ≠ H.emptyHash) := by
  intro i hi
  obtain ⟨ms, hms, hq⟩ := Option.map_eq_some_iff.mp (points i hi).2
  refine List.mem_filter.mpr ⟨(mem_membersByLeaf hpos).mpr ⟨ms, hms, hq⟩, ?_⟩
  simpa [marking, hi] using hv

/-- Where a root is computed, a write at one row that does not abort has gathered distinct keys. -/
theorem nodup_gathered_marking (hv : v ≠ H.emptyHash) (hroot : p.root H = .ok d)
    (onPath : p.MembersOnPath) (h : p.NeverCrashes H) (hpos : pos < p.leaves.length)
    (points : ∀ i ∈ marked, p.Points i pos)
    (absent : ∃ a ∈ marked, p.memberships[a]? = some (.absent pos)) :
    ((p.gathered H (marking H v marked) pos).map Prod.fst).Nodup := by
  have keys := keysInTable_of_root hroot
  obtain ⟨t, hshape, _, positions, leveled, _⟩ := root_eq_ok hroot
  obtain ⟨⟨t', c⟩, htraverse, ht⟩ := ok_bind_iff.mp hshape
  cases ht
  have inTable : ∀ q, ∀ i ∈ p.membersByLeaf.at q, marking H v marked i ≠ H.emptyHash → i < p.keys.length :=
    fun _ i _ hi => (points i (mem_of_marking hi)).1
  have mem : pos ∈ t.positions := by rwa [positions, List.mem_range]
  -- no other row is written, so no error ends the walk before the row
  have leaves := (reports_leaves htraverse (fun q hq => ?_)
    (reports_bind.mp (h.computeRoots (marking H v marked))).1).1 pos mem
  · obtain ⟨leaf, key, hleaf, hkey⟩ := keys.key hpos
    obtain ⟨a, ha, habs⟩ := absent
    refine nodup_of_reports_leafPair hpos hleaf hkey (leveled.depth_le mem).2 onPath (inTable pos)
      ⟨a, (mem_membersByLeaf hpos).mpr ⟨_, habs, rfl⟩, habs, ?_⟩ leaves
    rwa [marking, if_pos ha]
  · rw [positions, List.mem_range] at hq
    obtain ⟨leaf, key, hleaf, hkey⟩ := keys.key hq
    exact leafPair_ne_err hq hleaf hkey (inTable q)

/-- Where a root is computed, the members must be apart. -/
theorem membersApart_of_neverCrashes (hv : v ≠ H.emptyHash) (hroot : p.root H = .ok d)
    (onPath : p.MembersOnPath) (h : p.NeverCrashes H) : p.MembersApart H := by
  have pointed : ∀ {a pos : Nat}, a < p.keys.length → p.memberships[a]? = some (.absent pos) → p.Points a pos :=
    fun hak habs => ⟨hak, by simp [habs, Membership.leafPos]⟩
  constructor
  · rintro pos hpos ⟨a, _, hak, habs⟩ i _ j _ hi hj same
    have points : ∀ x ∈ [a, i, j], p.Points x pos := by
      simpa only [List.forall_mem_cons] using ⟨pointed hak habs, hi, hj, by simp⟩
    have nodup := nodup_gathered_marking hv hroot onPath h hpos points ⟨a, by simp, habs⟩
    rw [map_fst_gathered, List.nodup_append] at nodup
    exact List.inj_on_of_nodup_map nodup.1 (marked_written hv hpos points i (by simp))
      (marked_written hv hpos points j (by simp)) same
  · rintro pos hpos ⟨a, _, hak, habs⟩ live none i _ hi same
    have points : ∀ x ∈ [a, i], p.Points x pos := by
      simpa only [List.forall_mem_cons] using ⟨pointed hak habs, hi, by simp⟩
    have nodup := nodup_gathered_marking hv hroot onPath h hpos points ⟨a, by simp, habs⟩
    rw [map_fst_gathered, if_pos ⟨live, fun j hj => none j (membersByLeaf_lt hpos hj)⟩,
      List.nodup_append] at nodup
    exact nodup.2.2 _ (List.mem_map_of_mem (marked_written hv hpos points i (by simp))) _
      List.mem_cons_self same

end Marking

end Synthesis
section Wire
variable {H : Hasher Digest} {bytes : Bytes} {p : Proof Digest}

theorem memberships_lt_of_decode (h : decode bytes = .ok p) : p.memberships.length < 2 ^ 32 := by
  obtain ⟨rest, hread⟩ : ∃ rest, (read : Reader CodecError _).run bytes = .ok (p, rest) := by
    rw [decode, lift_eq_ok] at h
    cases hread : (read : Reader CodecError _).run bytes with
    | ok r =>
      rw [hread] at h
      cases h
      exact ⟨r.2, rfl⟩
    | error e =>
      rw [hread] at h
      cases h
  simp only [read, Reader.run_bind_eq_ok] at hread
  obtain ⟨_, _, _, _, _, _, _, _, _, _, _, _, memberships, _, hlast, hpure⟩ := hread
  cases hpure
  exact Reader.length_of_run_sliceAs hlast

def zeroHasher : Hasher Digest where
  emptyHash := Arr.fill 0
  hashPartsWithDomain _ _ := Arr.fill 0

/-- Two leaves beside a sibling, one of them witnessing an absent key. -/
def crowded : Proof Digest where
  keys := [0, 1 <<< 254, (1 <<< 254) + 1]
  leaves := [⟨2, 0, Arr.fill 1⟩, ⟨2, 1, Arr.fill 2⟩]
  siblings := [⟨HashedNode.LEAF, Arr.fill 3⟩]
  topology := [2]
  memberships := [.present 0, .present 1, .absent 1]

/-- A leaf one level down, with no key in the table. -/
def keyless : Proof Digest where
  keys := []
  leaves := [⟨1, 0, Arr.fill 1⟩]
  siblings := []
  topology := []
  memberships := []

end Wire
end Proof
end Vprogs.Smt
