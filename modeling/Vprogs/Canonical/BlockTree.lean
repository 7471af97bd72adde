import Vprogs.Canonical.PlainSet
import Vprogs.Forest

/-!
What the manager's log is over a whole run: the end of a log of all blocks ever
appended, which form a tree under their parent ids. The canonical set is a branch of
that tree. It stays one as long as every block appended extends the tip and every
rollback goes to a block of the branch that is still in the log.
-/
namespace Vprogs.Canonical

open BatchMetadata Forest

variable {M : Type} [BatchMetadata M]

/-- `log` lists every block the manager has seen, from the root at id 0, and `ids` the
canonical ones. The manager has dropped the log below its base. -/
structure BlockTree (Link : M → M → Prop) (p : CanonicalChainManager (Finset Nat) M) (log : List M)
    (ids : List Nat) : Prop where
  grown : Grown parentId Link log
  hashes : (log.map blockHash).Nodup
  branch : Branch parentId log ids
  chain : p.chain = ids.toFinset
  base_pos : 0 < p.base
  base_le : p.base ≤ log.length
  entries : p.entries = log.drop p.base
  index : ∀ hash id, p.index hash = some id ↔ p.base ≤ id ∧ ∃ m, log[id]? = some m ∧ blockHash m = hash
  /-- The tip is in the log, or it is the root and nothing has been dropped. -/
  live : p.base ≤ tip ids ∨ tip ids = 0 ∧ p.base = 1

namespace BlockTree

variable {Link : M → M → Prop} {p : CanonicalChainManager (Finset Nat) M} {log : List M} {ids : List Nat}

theorem root (m : M) : BlockTree Link { chain := ∅ } [m] [] where
  grown := grown_root m
  hashes := List.nodup_singleton _
  branch := .nil
  chain := rfl
  base_pos := Nat.one_pos
  base_le := Nat.le_refl 1
  entries := rfl
  index hash id := by
    refine iff_of_false (fun h => by cases h) ?_
    rintro ⟨hid, m', hm', _⟩
    have hlt := (List.getElem?_eq_some_iff.mp hm').1
    change 1 ≤ id at hid
    rw [List.length_singleton] at hlt
    omega
  live := .inr ⟨rfl, rfl⟩

theorem metadata (h : BlockTree Link p log ids) {id : Nat} (hid : p.base ≤ id) : p.metadata id = log[id]? := by
  rw [CanonicalChainManager.metadata, if_pos hid, h.entries, List.getElem?_drop]
  congr 1
  omega

theorem tip (h : BlockTree Link p log ids) : plain.tip p.chain = Forest.tip ids := by
  rw [h.chain]
  exact h.branch.tip_eq_sup

theorem tip_lt (h : BlockTree Link p log ids) : Forest.tip ids < log.length := by
  match Branch.tip_mem ids with
  | .inl ⟨hzero, _⟩ => exact hzero ▸ Nat.lt_of_lt_of_le h.base_pos h.base_le
  | .inr hmem => exact h.branch.lt_length hmem

/-- A block on the tip that has been dropped from the log would lie above the tip and below the base. -/
theorem above_tip (h : BlockTree Link p log ids) {id : Nat} {m : M} (hm : log[id]? = some m)
    (hparent : parentId m = Forest.tip ids) (hpos : 0 < id) : Forest.tip ids < id ∧ p.base ≤ id := by
  have ⟨hlt, _⟩ := h.grown id m hpos hm
  rw [hparent] at hlt
  refine ⟨hlt, ?_⟩
  match h.live with
  | .inl hlive => omega
  | .inr ⟨_, hbase⟩ => omega

section append

variable {x m : M} (h : BlockTree Link p log ids) (hx : log[Forest.tip ids]? = some x)
  (hlink : Link x m)
  (hlinks : ∀ {x y x' y'}, Link x y → Link x' y' → blockHash y = blockHash y' → blockHash x = blockHash x')
  (hroot : ∀ r, log[0]? = some r → blockHash m ≠ blockHash r)
include h hx hlink hlinks hroot

/-- A block seen before, appended on the tip, was logged with that parent. -/
theorem parent_of_seen {id : Nat} {y : M} (hy : log[id]? = some y) (hhash : blockHash y = blockHash m) :
    0 < id ∧ parentId y = Forest.tip ids := by
  have hpos : 0 < id := by
    match id with
    | 0 => exact absurd hhash.symm (hroot y hy)
    | _ + 1 => exact Nat.succ_pos _
  have ⟨_, x', hx', hlink'⟩ := h.grown id y hpos hy
  exact ⟨hpos, position_unique h.hashes hx' hx (hlinks hlink' hlink hhash)⟩

theorem valid : p.Valid (.append m) := by
  intro id hid
  have ⟨_, y, hy, hhash⟩ := (h.index (blockHash m) id).mp hid
  have ⟨hpos, hsame⟩ := h.parent_of_seen hx hlink hlinks hroot hy hhash
  rw [h.tip]
  exact (h.above_tip hy hsame hpos).1

theorem append_seen {id : Nat} (hid : p.index (blockHash m) = some id) :
    p.step plain (.append m) = some { p with chain := insert id p.chain } ∧
      BlockTree Link { p with chain := insert id p.chain } log (ids ++ [id]) ∧
      ∃ y, log[id]? = some y ∧ blockHash y = blockHash m := by
  have ⟨_, y, hy, hhash⟩ := (h.index (blockHash m) id).mp hid
  have ⟨hpos, hsame⟩ := h.parent_of_seen hx hlink hlinks hroot hy hhash
  have ⟨habove, hlive⟩ := h.above_tip hy hsame hpos
  refine ⟨?_, { h with branch := ?_, chain := ?_, live := .inl ?_ }, y, hy, hhash⟩
  · rw [CanonicalChainManager.step, CanonicalChainManager.append, hid]
    dsimp only
    rw [if_pos (h.tip ▸ habove)]
    rfl
  · exact h.branch.concat ⟨habove, y, hy, hsame⟩
  · rw [h.chain, List.toFinset_append, List.toFinset_cons, List.toFinset_nil, Finset.union_comm]
    rfl
  · rw [Forest.tip, List.getLast?_concat]
    exact hlive

theorem append_new (hparent : parentId m = Forest.tip ids) (hid : p.index (blockHash m) = none) :
    ∃ p', p.step plain (.append m) = some p' ∧ BlockTree Link p' (log ++ [m]) (ids ++ [log.length]) ∧
      p'.seen = log.length ∧ p'.base = p.base := by
  have hnext : p.base + p.entries.length = log.length := by
    have hle := h.base_le
    rw [h.entries, List.length_drop]
    omega
  have hfresh : blockHash m ∉ log.map blockHash := by
    intro hmem
    have ⟨y, hy, hhash⟩ := List.mem_map.mp hmem
    have ⟨id, hid'⟩ := List.mem_iff_getElem?.mp hy
    have ⟨hpos, hsame⟩ := h.parent_of_seen hx hlink hlinks hroot hid' hhash
    have hknown := (h.index (blockHash m) id).mpr ⟨(h.above_tip hid' hsame hpos).2, y, hid', hhash⟩
    rw [hid] at hknown
    cases hknown
  have hindex : ∀ hash id, Function.update p.index (blockHash m) (some log.length) hash = some id ↔
      p.base ≤ id ∧ ∃ y, (log ++ [m])[id]? = some y ∧ blockHash y = hash := by
    intro hash id
    rw [Function.update_apply, List.getElem?_append]
    split
    · next heq =>
      subst heq
      constructor
      · intro hsome
        cases hsome
        rw [if_neg (Nat.lt_irrefl _), Nat.sub_self]
        exact ⟨h.base_le, m, rfl, rfl⟩
      · rintro ⟨_, y, hy, hhash⟩
        split at hy
        · exact absurd (List.mem_map.mpr ⟨y, List.mem_of_getElem? hy, hhash⟩) hfresh
        · have hlt := (List.getElem?_eq_some_iff.mp hy).1
          rw [List.length_singleton] at hlt
          congr 1
          omega
    · next hne =>
      rw [h.index]
      constructor
      · rintro ⟨hbase, y, hy, hhash⟩
        rw [if_pos (List.getElem?_eq_some_iff.mp hy).1]
        exact ⟨hbase, y, hy, hhash⟩
      · rintro ⟨hbase, y, hy, hhash⟩
        split at hy
        · exact ⟨hbase, y, hy, hhash⟩
        · have hmem := List.mem_of_getElem? hy
          rw [List.mem_singleton.mp hmem] at hhash
          exact absurd hhash.symm hne
  have hlog : (log ++ [m]).length = log.length + 1 := by
    rw [List.length_append, List.length_singleton]
  refine ⟨⟨insert log.length p.chain, p.base, p.entries ++ [m],
    Function.update p.index (blockHash m) (some log.length)⟩, ?_, ?_, ?_, rfl⟩
  · rw [CanonicalChainManager.step, CanonicalChainManager.append, hid]
    change some (CanonicalChainManager.mk _ _ _ _) = _
    rw [show (p.push m).1 = log.length from hnext, show (p.push m).2.index =
      Function.update p.index (blockHash m) (some log.length) by rw [← hnext]; rfl]
    rfl
  · refine
      { grown := h.grown.concat (hparent ▸ hx) hlink
        hashes := ?_
        branch := (h.branch.grow m).concat (hparent ▸ edge_last (hparent ▸ h.tip_lt))
        chain := ?_
        base_pos := h.base_pos
        base_le := ?_
        entries := ?_
        index := hindex
        live := .inl ?_ }
    · rw [List.map_append, List.map_singleton]
      exact List.Nodup.append h.hashes (List.nodup_singleton _)
        (List.disjoint_singleton.mpr hfresh)
    · change insert log.length p.chain = _
      rw [h.chain, List.toFinset_append, List.toFinset_cons, List.toFinset_nil, Finset.union_comm]
      rfl
    · exact Nat.le_trans h.base_le (hlog ▸ Nat.le_succ _)
    · change p.entries ++ [m] = _
      rw [h.entries, List.drop_append_of_le_length h.base_le]
    · rw [Forest.tip, List.getLast?_concat]
      exact h.base_le
  · change p.base + (p.entries ++ [m]).length - 1 = log.length
    rw [List.length_append, List.length_singleton]
    omega

end append

/-- A rollback to a block of the branch that is still in the log. -/
theorem rollback (h : BlockTree Link p log ids) {kept : Nat}
    (hlive : p.base ≤ Forest.tip (ids.take kept) ∨ Forest.tip (ids.take kept) = 0 ∧ p.base = 1) :
    (Forest.tip (ids.take kept) = 0 ∨ Forest.tip (ids.take kept) ∈ p.chain) ∧
      ∃ p', p.rollback plain (Forest.tip (ids.take kept)) = some p' ∧ p'.base = p.base ∧
        p'.entries = p.entries ∧ p'.index = p.index ∧ BlockTree Link p' log (ids.take kept) := by
  refine ⟨?_, _, rfl, rfl, rfl, rfl, { h with branch := h.branch.take kept, chain := ?_, live := hlive }⟩
  · match Branch.tip_mem (ids.take kept) with
    | .inl ⟨hzero, _⟩ => exact .inl hzero
    | .inr hmem =>
      rw [h.chain]
      exact .inr (List.mem_toFinset.mpr (List.mem_of_mem_take hmem))
  · change p.chain.filter (· ≤ Forest.tip (ids.take kept)) = _
    rw [h.chain]
    exact h.branch.filter_le_tip kept

/-- Dropping entries moves the base up the same log. -/
theorem dropEntries_log (hhashes : (log.map blockHash).Nodup) {below : Nat} (hbelow : below ≤ log.length)
    (chain : Finset Nat) {base : Nat} {index : Arr 32 → Option Nat} {entries : List M} (hbase : base ≤ log.length)
    (hentries : entries = log.drop base)
    (hindex : ∀ hash id, index hash = some id ↔ base ≤ id ∧ ∃ m, log[id]? = some m ∧ blockHash m = hash) :
    ∃ index', CanonicalChainManager.dropEntries below chain base index entries =
        ⟨chain, max base below, log.drop (max base below), index'⟩ ∧
      ∀ hash id, index' hash = some id ↔
        max base below ≤ id ∧ ∃ m, log[id]? = some m ∧ blockHash m = hash := by
  induction entries generalizing base index with
  | nil =>
    have hlen : log.length ≤ base := List.drop_eq_nil_iff.mp hentries.symm
    have hmax : max base below = base := by omega
    rw [hmax, ← hentries]
    exact ⟨index, rfl, hindex⟩
  | cons m entries ih =>
    have hm : log[base]? = some m := by
      rw [← List.head?_drop, ← hentries]
      rfl
    rw [CanonicalChainManager.dropEntries]
    split
    · next hlt =>
      have hmax : max (base + 1) below = max base below := by omega
      rw [← hmax]
      refine ih (by omega) ?_ fun hash id => ?_
      · rw [← List.drop_drop, ← hentries]
        rfl
      · rw [Function.update_apply]
        split
        · next heq =>
          refine iff_of_false (fun hnone => by cases hnone) ?_
          rintro ⟨hid, y, hy, hhash⟩
          have := position_unique hhashes hm hy (heq.symm.trans hhash.symm)
          omega
        · next hne =>
          rw [hindex]
          constructor
          · rintro ⟨hid, y, hy, hhash⟩
            refine ⟨Nat.lt_of_le_of_ne hid fun heq => hne ?_, y, hy, hhash⟩
            subst heq
            rw [← hhash, Option.some.inj (hy.symm.trans hm)]
          · rintro ⟨hid, hlogged⟩
            exact ⟨Nat.le_of_succ_le hid, hlogged⟩
    · have hmax : max base below = base := by omega
      rw [hmax, ← hentries]
      exact ⟨index, rfl, hindex⟩

theorem finalize (h : BlockTree Link p log ids) {below : Nat} (hbelow : below ≤ Forest.tip ids) :
    (p.finalize plain below).base = max p.base below ∧
      BlockTree Link (p.finalize plain below) log ids := by
  have htip := h.tip_lt
  have ⟨index, hdrop, hindex⟩ := dropEntries_log h.hashes (Nat.le_of_lt (Nat.lt_of_le_of_lt hbelow htip))
    p.chain h.base_le h.entries h.index
  have hfinal : p.finalize plain below = ⟨p.chain, max p.base below, log.drop (max p.base below), index⟩ := hdrop
  rw [hfinal]
  refine ⟨rfl, { h with base_pos := ?_, base_le := ?_, entries := rfl, index := hindex, live := ?_ }⟩
  · exact Nat.lt_of_lt_of_le h.base_pos (Nat.le_max_left _ _)
  · exact Nat.max_le.mpr ⟨h.base_le, Nat.le_of_lt (Nat.lt_of_le_of_lt hbelow htip)⟩
  · match h.live with
    | .inl hlive => exact .inl (Nat.max_le.mpr ⟨hlive, hbelow⟩)
    | .inr ⟨hzero, hbase⟩ =>
      refine .inr ⟨hzero, ?_⟩
      change max p.base below = 1
      omega

end BlockTree

end Vprogs.Canonical
