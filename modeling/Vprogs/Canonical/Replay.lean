import Vprogs.Canonical.Restore

/-!
The log of a chain, replayed and live. A replay with debug assertions accepts exactly
consecutive ids and leaves their log; the walk over the parents of a branch finds the
part of it that is in the log.
-/
namespace Vprogs.Canonical

/-! ### The replayed log -/

namespace CanonicalChainManager

open BatchMetadata

variable {C M : Type} [BatchMetadata M] {m m' : CanonicalChainManager C M}

/-- The last entry of a hash gives its id. -/
def logIndex (index : Arr 32 → Option Nat) (entries : List (Nat × M)) : Arr 32 → Option Nat :=
  entries.foldl (fun index e => Function.update index (blockHash e.2) (some e.1)) index

theorem replay_started (entries : List (Nat × M)) (hstarted : m.entries ≠ []) :
    replay true m entries =
      if entries.map Prod.fst = List.range' (m.base + m.entries.length) entries.length then
        some ⟨m.chain, m.base, m.entries ++ entries.map Prod.snd, logIndex m.index entries⟩
      else none := by
  induction entries generalizing m with
  | nil =>
    change _ = some (⟨m.chain, m.base, m.entries ++ [], m.index⟩ : CanonicalChainManager C M)
    rw [List.append_nil]
    rfl
  | cons e entries ih =>
    have hnot : ¬ m.entries.isEmpty = true := fun h => hstarted (List.isEmpty_iff.mp h)
    simp only [replay, if_neg hnot]
    rw [List.map_cons, List.length_cons, List.range'_succ]
    have hid : (m.push e.2).1 = m.base + m.entries.length := rfl
    by_cases heq : e.1 = m.base + m.entries.length
    · have hnext : (m.push e.2).2.base + (m.push e.2).2.entries.length = m.base + m.entries.length + 1 := by
        change m.base + (m.entries ++ [e.2]).length = _
        rw [List.length_append, List.length_singleton, Nat.add_assoc]
      rw [if_neg (fun h => h.2 (hid.trans heq.symm)), ih (by simp [push]), hnext, heq]
      simp only [List.cons.injEq, true_and]
      refine if_congr Iff.rfl (congrArg some ?_) rfl
      rw [push, logIndex, logIndex, List.foldl_cons, heq, List.append_assoc]
      rfl
    · rw [if_pos ⟨trivial, fun h => heq (h.symm.trans hid)⟩, if_neg]
      intro h
      exact heq (List.cons.inj h).1

theorem replay_eq_some {chain : C} {entries : List (Nat × M)} (hne : entries ≠ []) :
    replay true { chain := chain } entries = some m ↔
      ∃ lo, entries.map Prod.fst = List.range' lo entries.length ∧
        m = ⟨chain, lo, entries.map Prod.snd, logIndex (fun _ => none) entries⟩ := by
  match entries, hne with
  | (lo, metadata) :: entries, _ =>
    change (if true = true ∧ lo ≠ lo then none
      else replay true (push ⟨chain, lo, [], fun _ => none⟩ metadata).2 entries) = some m ↔ _
    rw [if_neg (fun h => h.2 rfl), replay_started entries (by simp [push])]
    change (if entries.map Prod.fst = List.range' (lo + 1) entries.length then
      some (⟨chain, lo, metadata :: entries.map Prod.snd, logIndex (fun _ => none) ((lo, metadata) :: entries)⟩ :
        CanonicalChainManager C M) else none) = some m ↔ _
    constructor
    · intro h
      split at h
      · next hids =>
        cases h
        exact ⟨lo, by rw [List.map_cons, List.length_cons, List.range'_succ, hids], rfl⟩
      · cases h
    · intro ⟨lo', hids, heq⟩
      rw [List.map_cons, List.length_cons, List.range'_succ] at hids
      have ⟨hlo, hrest⟩ := List.cons.inj hids
      change lo = lo' at hlo
      rw [← hlo] at hrest heq
      rw [if_pos hrest, heq]
      rfl

theorem logIndex_concat (index : Arr 32 → Option Nat) (entries : List (Nat × M)) (e : Nat × M) :
    logIndex index (entries ++ [e]) = Function.update (logIndex index entries) (blockHash e.2) (some e.1) :=
  List.foldl_concat _ _ _ _

theorem mem_of_logIndex {entries : List (Nat × M)} {hash : Arr 32} {id : Nat}
    (h : logIndex (fun _ => none) entries hash = some id) :
    ∃ metadata, (id, metadata) ∈ entries ∧ blockHash metadata = hash := by
  induction entries using List.reverseRecOn with
  | nil => cases h
  | append_singleton entries e ih =>
    rw [logIndex_concat, Function.update_apply] at h
    split at h
    · next heq =>
      cases h
      exact ⟨e.2, List.mem_append_right _ (List.mem_singleton.mpr rfl), heq.symm⟩
    · have ⟨metadata, hmem, hhash⟩ := ih h
      exact ⟨metadata, List.mem_append_left _ hmem, hhash⟩

theorem logIndex_of_last {entries : List (Nat × M)} (hsorted : entries.Pairwise fun a b => a.1 < b.1)
    {id : Nat} {metadata : M} (hmem : (id, metadata) ∈ entries)
    (hlast : ∀ e ∈ entries, blockHash e.2 = blockHash metadata → e.1 ≤ id) :
    logIndex (fun _ => none) entries (blockHash metadata) = some id := by
  induction entries using List.reverseRecOn with
  | nil => cases hmem
  | append_singleton entries e ih =>
    have ⟨hsorted', _, hbelow⟩ := List.pairwise_append.mp hsorted
    rw [logIndex_concat, Function.update_apply]
    match List.mem_append.mp hmem with
    | .inr heq =>
      rw [← List.mem_singleton.mp heq, if_pos rfl]
    | .inl hold =>
      have hlt : id < e.1 := hbelow _ hold e (List.mem_singleton.mpr rfl)
      rw [if_neg fun heq => ?_]
      · exact ih hsorted' hold fun e' he' => hlast e' (List.mem_append_left _ he')
      · have hle := hlast e (List.mem_append_right _ (List.mem_singleton.mpr rfl)) heq.symm
        omega

/-! ### Ancestry -/

/-- A branch from its tip down: each block names the one before it as its parent, the
first names 0. -/
def Descends (metadata : Nat → M) : List Nat → Prop
  | [] => True
  | t :: rest => parentId (metadata t) = rest.headD 0 ∧ rest.headD 0 < t ∧ Descends metadata rest

theorem Descends.lt_head {metadata : Nat → M} {t : Nat} {rest : List Nat}
    (h : Descends metadata (t :: rest)) : ∀ u ∈ rest, u < t := by
  induction rest generalizing t with
  | nil => exact fun _ hu => by cases hu
  | cons t' rest ih =>
    have ⟨_, hlt, hrest⟩ := h
    intro u hu
    match List.mem_cons.mp hu with
    | .inl heq => exact heq ▸ hlt
    | .inr hu => exact Nat.lt_trans (ih hrest u hu) hlt

theorem Descends.filter_le {metadata : Nat → M} {ids : List Nat} (h : Descends metadata ids) (t : Nat) :
    Descends metadata (ids.filter fun id => decide (id ≤ t)) := by
  induction ids with
  | nil => trivial
  | cons id ids ih =>
    rw [List.filter_cons]
    split
    · next hle =>
      have hall : ids.filter (fun id => decide (id ≤ t)) = ids := by
        refine List.filter_eq_self.mpr fun u hu => decide_eq_true ?_
        have hlt := h.lt_head u hu
        have := of_decide_eq_true hle
        omega
      rw [hall]
      exact h
    · exact ih h.2.2

theorem Descends.sup_eq {metadata : Nat → M} {ids : List Nat} (h : Descends metadata ids) :
    ids.toFinset.sup id = ids.headD 0 := by
  match ids with
  | [] => rfl
  | t :: rest =>
    refine Nat.le_antisymm (Finset.sup_le fun u hu => ?_) ?_
    · match List.mem_cons.mp (List.mem_toFinset.mp hu) with
      | .inl heq => exact Nat.le_of_eq heq
      | .inr hu => exact Nat.le_of_lt (h.lt_head u hu)
    · exact Finset.le_sup (f := id) (List.mem_toFinset.mpr List.mem_cons_self)

theorem Descends.headD_filter {metadata : Nat → M} {ids : List Nat} (h : Descends metadata ids) {t : Nat}
    (ht : t = 0 ∨ t ∈ ids) : (ids.filter fun id => decide (id ≤ t)).headD 0 = t := by
  rw [← (h.filter_le t).sup_eq, List.toFinset_filter]
  refine Nat.le_antisymm (Finset.sup_le fun u hu => ?_) ?_
  · exact of_decide_eq_true (Finset.mem_filter.mp hu).2
  · match ht with
    | .inl hzero => exact hzero ▸ Nat.zero_le _
    | .inr hmem =>
      exact Finset.le_sup (f := id) (Finset.mem_filter.mpr
        ⟨List.mem_toFinset.mpr hmem, decide_eq_true (Nat.le_refl t)⟩)

/-- The walk finds the part of the branch that is in the log. -/
theorem ancestry_eq {metadata : Nat → M} {t : Nat} {rest : List Nat} (h : Descends metadata (t :: rest))
    (hbase : 0 < m.base) (ht : m.base ≤ t)
    (hlog : ∀ id, m.base ≤ id → id ≤ t → m.metadata id = some (metadata id)) {steps : Nat} (hsteps : t < steps) :
    m.ancestry steps t = some ((t :: rest).filter fun id => decide (m.base ≤ id)) := by
  induction rest generalizing t steps with
  | nil =>
    match steps with
    | steps + 1 =>
      rw [ancestry, hlog t ht (Nat.le_refl t), Option.bind_some]
      dsimp only
      rw [h.1, if_pos (.inl hbase), List.filter_cons, if_pos (decide_eq_true ht)]
      rfl
  | cons t' rest ih =>
    have ⟨hparent, hlt, hrest⟩ := h
    match steps with
    | steps + 1 =>
      rw [ancestry, hlog t ht (Nat.le_refl t), Option.bind_some]
      dsimp only
      rw [hparent, List.filter_cons, if_pos (decide_eq_true ht)]
      change t' < t at hlt
      change (if t' < m.base ∨ t ≤ t' then _ else _) = _
      split
      · next hstop =>
        have hbelow : (t' :: rest).filter (fun id => decide (m.base ≤ id)) = [] := by
          refine List.filter_eq_nil_iff.mpr fun u hu hle => ?_
          have hle := of_decide_eq_true hle
          match List.mem_cons.mp hu with
          | .inl heq => omega
          | .inr hu =>
            have := hrest.lt_head u hu
            omega
        rw [hbelow]
      · next hgo =>
        change (m.ancestry steps t').map (t :: ·) = _
        rw [ih hrest (by omega) (fun id hid hle => hlog id hid (by omega)) (by omega)]
        rfl

/-! ### Reopening -/

theorem replay_release {entries : List (Nat × M)} (h : replay true m entries = some m') :
    replay false m entries = some m' := by
  induction entries generalizing m with
  | nil => exact h
  | cons e entries ih =>
    rw [replay] at h ⊢
    generalize (if m.entries.isEmpty = true then { m with base := e.1 } else m) = started at h ⊢
    rw [if_neg fun hpanic => Bool.false_ne_true hpanic.1]
    by_cases hid : (started.push e.2).1 = e.1
    · rw [if_neg fun hpanic => hpanic.2 hid] at h
      exact ih h
    · rw [if_pos ⟨rfl, hid⟩] at h
      cases h

omit [BatchMetadata M] in
theorem getLast?_of_fst_range' {entries : List (Nat × M)} {lo : Nat} (hne : entries ≠ [])
    (hids : entries.map Prod.fst = List.range' lo entries.length) :
    ∃ metadata, entries.getLast? = some (lo + (entries.length - 1), metadata) := by
  have hpos : 0 < entries.length := List.length_pos_iff.mpr hne
  have hget : (entries.map Prod.fst)[entries.length - 1]? = some (lo + 1 * (entries.length - 1)) := by
    rw [hids, List.getElem?_range' (by omega)]
  rw [List.getElem?_map, Nat.one_mul] at hget
  have ⟨e, he, hfst⟩ := Option.map_eq_some_iff.mp hget
  refine ⟨e.2, ?_⟩
  rw [List.getLast?_eq_getElem?, he, ← hfst]

/-- What a reopened manager holds: its log is the stored one, its tip the last id. -/
theorem new_eq_some {chain : CanonicalChain} {entries : List (Nat × M)} (hne : entries ≠ [])
    {r : CanonicalChainManager CanonicalChain M} (h : new true chain entries = some r) :
    ∃ lo, entries.map Prod.fst = List.range' lo entries.length ∧
      r.index = logIndex (fun _ => none) entries ∧
      (0 < lo → r.chain.tip = lo + (entries.length - 1)) := by
  have ⟨log, hlog, hrest⟩ := Option.bind_eq_some_iff.mp h
  have ⟨lo, hids, heq⟩ := (replay_eq_some hne).mp hlog
  have ⟨metadata, hlast⟩ := getLast?_of_fst_range' hne hids
  rw [hlast] at hrest
  have ⟨canonical, _, hrest⟩ := Option.bind_eq_some_iff.mp hrest
  have ⟨restored, hrestored, hr⟩ := Option.map_eq_some_iff.mp hrest
  refine ⟨lo, hids, by rw [← hr, heq], fun hlo => ?_⟩
  rw [← hr]
  exact CanonicalChain.tip_restore (by omega) hrestored

/-- Consecutive entries whose last is the tip of a branch reopen to that branch. -/
theorem new_spec (debug : Bool) (chain : CanonicalChain) {entries : List (Nat × M)} {metadata : Nat → M}
    {lo t : Nat} {rest : List Nat} (hlo : 0 < lo) (ht : lo ≤ t)
    (hids : entries.map Prod.fst = List.range' lo (t + 1 - lo))
    (hvalues : ∀ e ∈ entries, e.2 = metadata e.1) (hbranch : Descends metadata (t :: rest)) :
    ∃ r, new debug chain entries = some r ∧ r.base + r.entries.length = t + 1 ∧
      r.index = logIndex (fun _ => none) entries ∧ r.chain.tip = t ∧
      ∀ id, lo ≤ id → r.chain.isCanonical r.chain.snapshot id = decide (id ∈ t :: rest) := by
  have hlength : entries.length = t + 1 - lo := by
    rw [← List.length_map (f := Prod.fst), hids, List.length_range']
  have hne : entries ≠ [] := List.ne_nil_of_length_pos (by omega)
  rw [← hlength] at hids
  have hlog : replay true { chain := chain } entries = some _ := (replay_eq_some hne).mpr ⟨lo, hids, rfl⟩
  generalize hr : (⟨chain, lo, entries.map Prod.snd, logIndex (fun _ => none) entries⟩ :
    CanonicalChainManager CanonicalChain M) = log at hlog
  have hbase : log.base = lo := hr ▸ rfl
  have hentries : log.entries = (List.range' lo entries.length).map metadata := by
    rw [← hids, List.map_map, ← hr]
    exact List.map_congr_left hvalues
  have hmetadata : ∀ id, log.base ≤ id → id ≤ t → log.metadata id = some (metadata id) := by
    intro id hid hle
    rw [CanonicalChainManager.metadata, if_pos hid, hentries, List.getElem?_map,
      List.getElem?_range' (by omega), hbase, Option.map_some, Nat.one_mul, Nat.add_sub_cancel' (hbase ▸ hid)]
  have hancestry : log.canonicalAncestry t = some ((t :: rest).filter fun id => decide (log.base ≤ id)) :=
    ancestry_eq hbranch (hbase ▸ hlo) (hbase ▸ ht) hmetadata (Nat.lt_succ_self t)
  have hrange : ∀ id ∈ (t :: rest).filter (fun id => decide (log.base ≤ id)), log.base ≤ id ∧ id ≤ t := by
    intro id hid
    have ⟨hmem, hle⟩ := List.mem_filter.mp hid
    refine ⟨of_decide_eq_true hle, ?_⟩
    match List.mem_cons.mp hmem with
    | .inl heq => exact Nat.le_of_eq heq
    | .inr hmem => exact Nat.le_of_lt (hbranch.lt_head id hmem)
  have ⟨c, hc, htip, hcanonical⟩ :=
    CanonicalChain.restore_spec (c := log.chain) (hbase ▸ hlo) (hbase ▸ ht) hrange
  have ⟨last, hlast⟩ := getLast?_of_fst_range' hne hids
  rw [show lo + (entries.length - 1) = t by omega] at hlast
  have hreplay : replay debug { chain := chain } entries = some log := by
    cases debug with
    | true => exact hlog
    | false => exact replay_release hlog
  refine ⟨{ log with chain := c }, ?_, ?_, by rw [← hr], htip, fun id hid => ?_⟩
  · rw [new, hreplay, Option.bind_some, hlast]
    change (log.canonicalAncestry t).bind _ = _
    rw [hancestry, Option.bind_some, hc, Option.map_some]
  · change log.base + log.entries.length = t + 1
    rw [hbase, hentries, List.length_map, List.length_range']
    omega
  · rw [hcanonical id (hbase ▸ hid)]
    refine decide_eq_decide.mpr (List.mem_filter.trans (and_iff_left ?_))
    exact decide_eq_true (hbase ▸ hid)

/-! ### The live log -/

/-- The log holds the metadata of its ids, and the index leads back to them. -/
structure Numbered (metadata : Nat → M) (m : CanonicalChainManager C M) : Prop where
  base : 0 < m.base
  entries : m.entries = (List.range' m.base m.entries.length).map metadata
  index : ∀ hash id, m.index hash = some id ↔
    m.base ≤ id ∧ id < m.base + m.entries.length ∧ blockHash (metadata id) = hash

variable {metadata : Nat → M}

theorem Numbered.index_eq (h : m.Numbered metadata) {id : Nat} (hbase : m.base ≤ id)
    (hid : id < m.base + m.entries.length) : m.index (blockHash (metadata id)) = some id :=
  (h.index _ id).mpr ⟨hbase, hid, rfl⟩

theorem Numbered.push (h : m.Numbered metadata) {x : M} (hx : x = metadata (m.base + m.entries.length))
    (hnew : m.index (blockHash x) = none) : (m.push x).2.Numbered metadata where
  base := h.base
  entries := by
    change m.entries ++ [x] = (List.range' m.base (m.entries ++ [x]).length).map metadata
    rw [List.length_append, List.length_singleton, List.range'_concat, List.map_append, ← h.entries, hx]
    simp
  index hash id := by
    change Function.update m.index (blockHash x) (some (m.base + m.entries.length)) hash = some id ↔
      m.base ≤ id ∧ id < m.base + (m.entries ++ [x]).length ∧ blockHash (metadata id) = hash
    rw [Function.update_apply, List.length_append, List.length_singleton]
    have hold : ∀ id, m.base ≤ id → id < m.base + m.entries.length → blockHash (metadata id) ≠ blockHash x := by
      intro id hbase hid heq
      have := h.index_eq hbase hid
      rw [heq, hnew] at this
      cases this
    split
    · next heq =>
      rw [Option.some.injEq, heq]
      constructor
      · intro hid
        rw [← hid, hx]
        exact ⟨by omega, by omega, rfl⟩
      · intro ⟨hbase, hid, hhash⟩
        by_contra hne
        exact hold id hbase (by omega) hhash
    · next hne =>
      rw [h.index]
      refine and_congr_right fun hbase => ⟨fun ⟨hid, hhash⟩ => ⟨by omega, hhash⟩, fun ⟨hid, hhash⟩ => ⟨?_, hhash⟩⟩
      by_contra hge
      have hlast : id = m.base + m.entries.length := by omega
      rw [hlast, ← hx] at hhash
      exact hne hhash.symm

/-- The id a block gets does not depend on the chain. -/
def nextOutcome (m : CanonicalChainManager C M) (x : M) : AppendOutcome :=
  match m.index (blockHash x) with
  | some id => ⟨id, false⟩
  | none => ⟨m.base + m.entries.length, true⟩

theorem append_outcome {O : Oracle C} {x : M} {outcome : AppendOutcome}
    (hstep : m.append O x = some (outcome, m')) : outcome = m.nextOutcome x := by
  rw [append] at hstep
  split at hstep
  · next id hindex =>
    rw [nextOutcome, hindex]
    split at hstep
    · obtain ⟨_, _, heq⟩ := Option.map_eq_some_iff.mp hstep
      cases heq
      rfl
    · cases hstep
      rfl
  · next hindex =>
    obtain ⟨_, _, heq⟩ := Option.map_eq_some_iff.mp hstep
    rw [nextOutcome, hindex]
    cases heq
    rfl

theorem Numbered.append (h : m.Numbered metadata) {O : Oracle C} {x : M} {outcome : AppendOutcome}
    (hx : x = metadata outcome.id) (hstep : m.append O x = some (outcome, m')) : m'.Numbered metadata := by
  have hid := append_outcome hstep
  unfold nextOutcome at hid
  rw [CanonicalChainManager.append] at hstep
  split at hstep
  · split at hstep
    · obtain ⟨_, _, heq⟩ := Option.map_eq_some_iff.mp hstep
      cases heq
      exact ⟨h.base, h.entries, h.index⟩
    · cases hstep
      exact h
  · next hindex =>
    rw [hindex] at hid
    rw [hid] at hx
    have hpushed := h.push hx hindex
    obtain ⟨_, _, heq⟩ := Option.map_eq_some_iff.mp hstep
    cases heq
    exact ⟨hpushed.base, hpushed.entries, hpushed.index⟩

/-- An append gives out an id of the log or the next one. -/
theorem Numbered.append_bounds (h : m.Numbered metadata) {O : Oracle C} {x : M} {outcome : AppendOutcome}
    (hstep : m.append O x = some (outcome, m')) :
    m'.base = m.base ∧ m.base ≤ outcome.id ∧ m'.seen = max m.seen outcome.id := by
  have hbase := h.base
  rw [CanonicalChainManager.append] at hstep
  split at hstep
  · next id hindex =>
    obtain ⟨hlow, hid, _⟩ := (h.index _ id).mp hindex
    have hmax : m.seen = max m.seen id := (max_eq_left (by unfold seen; omega)).symm
    split at hstep
    · obtain ⟨chain, hchain, heq⟩ := Option.map_eq_some_iff.mp hstep
      cases heq
      exact ⟨rfl, hlow, hmax⟩
    · cases hstep
      exact ⟨rfl, hlow, hmax⟩
  · obtain ⟨chain, hchain, heq⟩ := Option.map_eq_some_iff.mp hstep
    cases heq
    refine ⟨rfl, Nat.le_add_right _ _, ?_⟩
    change m.base + (m.entries ++ [x]).length - 1 = max (m.base + m.entries.length - 1) (m.base + m.entries.length)
    rw [List.length_append, List.length_singleton]
    omega

theorem Numbered.dropEntries (below : Nat) {chain : C} {entries : List M} {base : Nat}
    {index : Arr 32 → Option Nat}
    (h : (⟨chain, base, entries, index⟩ : CanonicalChainManager C M).Numbered metadata) :
    (dropEntries below chain base index entries).Numbered metadata ∧
      (dropEntries below chain base index entries).base = max base (min below (base + entries.length)) := by
  induction entries generalizing base index with
  | nil =>
    refine ⟨h, ?_⟩
    change base = max base (min below (base + 0))
    omega
  | cons x entries ih =>
    rw [CanonicalChainManager.dropEntries]
    have hentries := h.entries
    change x :: entries = (List.range' base (entries.length + 1)).map metadata at hentries
    rw [List.range'_succ, List.map_cons] at hentries
    obtain ⟨hx, hrest⟩ := List.cons.inj hentries
    split
    · next hlt =>
      have hdropped : (⟨chain, base + 1, entries, Function.update index (blockHash x) none⟩ :
          CanonicalChainManager C M).Numbered metadata := by
        refine ⟨Nat.succ_pos _, hrest, fun hash id => ?_⟩
        have hindex := h.index hash id
        change index hash = some id ↔
          base ≤ id ∧ id < base + (entries.length + 1) ∧ blockHash (metadata id) = hash at hindex
        change Function.update index (blockHash x) none hash = some id ↔
          base + 1 ≤ id ∧ id < base + 1 + entries.length ∧ blockHash (metadata id) = hash
        rw [Function.update_apply]
        split
        · next heq =>
          refine iff_of_false (fun hnone => by cases hnone) ?_
          rintro ⟨hbase, hid, hhash⟩
          -- the dropped id is the only one of its hash
          have hfirst : index hash = some base := (h.index hash base).mpr
            ⟨Nat.le_refl _, by change base < base + (entries.length + 1); omega, by rw [← hx, heq]⟩
          have hthis := hindex.mpr ⟨by omega, by omega, hhash⟩
          rw [hfirst] at hthis
          cases hthis
          omega
        · next hne =>
          rw [hindex]
          refine ⟨?_, fun h => ⟨by omega, by omega, h.2.2⟩⟩
          rintro ⟨hbase, hid, hhash⟩
          refine ⟨?_, by omega, hhash⟩
          by_contra hlow
          have heq : id = base := by omega
          rw [heq, ← hx] at hhash
          exact hne hhash.symm
      obtain ⟨hnumbered, hbase⟩ := ih hdropped
      refine ⟨hnumbered, hbase.trans ?_⟩
      rw [List.length_cons]
      omega
    · next hge =>
      refine ⟨h, ?_⟩
      change base = max base (min below (base + (entries.length + 1)))
      omega

end CanonicalChainManager

end Vprogs.Canonical
