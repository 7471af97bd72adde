import Vprogs.Smt.ProofPlan

/-!
The builder writes its plan out. Every step of the walk appends to the tables
what the plan has next, interned keys resolve to the rows' keys, and the slots
of the sorted inputs point at the rows that answer them.
-/
namespace Vprogs.Smt

section Topology

theorem getLsb_append_zero (bytes : List UInt8) (i : Nat) : getLsb (bytes ++ [0]) i = getLsb bytes i := by
  unfold getLsb
  by_cases h : i / 8 < bytes.length
  · rw [List.getElem?_append_left h]
  · rw [List.getElem?_append_right (by omega), List.getElem?_eq_none (by omega : bytes.length ≤ i / 8)]
    by_cases h0 : i / 8 - bytes.length = 0
    · simp [h0]
    · rw [List.getElem?_eq_none (by simp; omega)]

theorem getLsb_setLsb {bytes : List UInt8} {n : Nat} (h : n / 8 < bytes.length) (i : Nat) :
    getLsb (setLsb bytes n) i = (decide (i = n) || getLsb bytes i) := by
  unfold getLsb setLsb
  rw [List.getElem?_modify]
  by_cases hq : n / 8 = i / 8
  · rw [← hq, List.getElem?_eq_getElem h]
    have hpow : (UInt8.ofNat (1 <<< (n % 8))).toNat = 2 ^ (n % 8) := by
      rw [UInt8.toNat_ofNat', Nat.one_shiftLeft]
      exact Nat.mod_eq_of_lt (Nat.pow_lt_pow_right (by omega) (Nat.mod_lt n (by omega)))
    have hi : i = n ↔ n % 8 = i % 8 := by omega
    simp [hpow, Nat.testBit_or, Nat.testBit_two_pow, hi, Bool.or_comm]
  · have hne : i ≠ n := fun h => hq (h ▸ rfl)
    cases bytes[i / 8]? <;> simp [hne, hq]

/-- The packed bits of a topology. -/
structure Topology.Packs (t : Topology) (bits : List Bool) : Prop where
  len : t.len = bits.length
  size : t.bytes.length = (bits.length + 7) / 8
  bit : ∀ i, getLsb t.bytes i = bits.getD i false

theorem Topology.packs_nil : ({} : Topology).Packs [] := ⟨rfl, rfl, fun _ => rfl⟩

theorem Topology.Packs.push {t : Topology} {bits : List Bool} (h : t.Packs bits) (b : Bool) :
    (t.push b).Packs (bits ++ [b]) := by
  have hlen := h.len
  have hsize := h.size
  -- after growing there is a byte for the next bit, and it is still zero
  have ⟨bytes, hbytes, grown, same⟩ : ∃ bytes, bytes = (if t.len % 8 = 0 then t.bytes ++ [0] else t.bytes) ∧
      bytes.length = (bits.length + 1 + 7) / 8 ∧ ∀ i, getLsb bytes i = getLsb t.bytes i := by
    refine ⟨_, rfl, ?_⟩
    split
    · exact ⟨by rw [List.length_append, List.length_singleton]; omega, getLsb_append_zero _⟩
    · exact ⟨by omega, fun _ => rfl⟩
  have next : ∀ i, (bits ++ [b]).getD i false = if i = bits.length then b else bits.getD i false := by
    intro i
    rw [List.getD_eq_getElem?_getD, List.getD_eq_getElem?_getD, List.getElem?_append]
    split
    · rw [if_neg (by omega)]
    · by_cases hi : i = bits.length
      · simp [hi]
      · rw [if_neg hi, List.getElem?_eq_none (by simp; omega), List.getElem?_eq_none (by omega)]
  have hlast : bits.getD bits.length false = false := by simp
  have hpush : t.push b = ⟨if b then setLsb bytes t.len else bytes, t.len + 1⟩ := by
    rw [hbytes]
    rfl
  rw [hpush]
  refine ⟨by simp [hlen], ?_, fun i => ?_⟩
  · cases b <;> simp [setLsb, grown]
  · rw [next]
    cases b with
    | false =>
      change getLsb bytes i = _
      rw [same, h.bit]
      by_cases hi : i = bits.length
      · rw [if_pos hi, hi, hlast]
      · rw [if_neg hi]
    | true =>
      change getLsb (setLsb bytes t.len) i = _
      rw [getLsb_setLsb (by rw [grown, hlen]; omega), same, h.bit, hlen]
      by_cases hi : i = bits.length <;> simp [hi]

end Topology

namespace ProofBuilder

variable {D : Type}

/-- A table leaf is a row with its key interned. -/
def LeafOf (keys : List Key) (leaf : Leaf D) (row : Row D) : Prop :=
  leaf.depth = row.depth ∧ leaf.valueHash = row.value ∧ keys[leaf.keyIdx]? = some row.key

/-- The slots of the rows' inputs, each holding its row's position. -/
def slotsOf : Nat → List (Row D) → List Nat
  | _, [] => []
  | pos, row :: rest => List.replicate row.inputs.length pos ++ slotsOf (pos + 1) rest

theorem slotsOf_append (pos : Nat) (rows : List (Row D)) (row : Row D) :
    slotsOf pos (rows ++ [row]) =
      slotsOf pos rows ++ List.replicate row.inputs.length (pos + rows.length) := by
  induction rows generalizing pos with
  | nil => simp [slotsOf]
  | cons r rows ih =>
    rw [List.cons_append, slotsOf, slotsOf, ih, List.append_assoc, List.length_cons,
      Nat.add_right_comm, Nat.add_assoc]

theorem length_slotsOf (pos : Nat) (rows : List (Row D)) :
    (slotsOf pos rows).length = (Plan.inputs rows).length := by
  induction rows generalizing pos with
  | nil => rfl
  | cons r rows ih =>
    rw [slotsOf, List.length_append, List.length_replicate, ih]
    unfold Plan.inputs
    rw [List.flatMap_cons, List.length_append]

/-- The tables hold exactly these rows, siblings and bits, and beyond the input
one key per leaf at most, up to `spare` keys whose leaf is still to come. -/
structure Tables (input : List Key) (spare : Nat) (b : ProofBuilder D) (rows : List (Row D))
    (sibs : List (HashedNode D)) (bits : List Bool) : Prop where
  inputFirst : input <+: b.keys
  nodup : b.keys.Nodup
  count : b.keys.length ≤ input.length + b.leaves.length + spare
  lookup : ∀ k i, b.keyToIdx.lookup k = some i ↔ b.keys[i]? = some k
  leaves : List.Forall₂ (LeafOf b.keys) b.leaves rows
  siblings : b.siblings = sibs
  topology : b.topology.Packs bits
  slots : b.sortedToLeaf =
    slotsOf 0 rows ++ List.replicate (input.length - (Plan.inputs rows).length) 0

abbrev Built (input : List Key) (b : ProofBuilder D) (rows : List (Row D))
    (sibs : List (HashedNode D)) (bits : List Bool) : Prop := Tables input 0 b rows sibs bits

theorem lookup_zipIdx {keys : List Key} (nodup : keys.Nodup) (n : Nat) (k : Key) (i : Nat) :
    (keys.zipIdx n).lookup k = some i ↔ n ≤ i ∧ keys[i - n]? = some k := by
  induction keys generalizing n with
  | nil => simp
  | cons key keys ih =>
    have ⟨fresh, rest⟩ := List.nodup_cons.mp nodup
    rw [List.zipIdx_cons, List.lookup_cons]
    by_cases hk : k = key
    · subst hk
      simp only [beq_self_eq_true, Option.some.injEq]
      constructor
      · intro h
        subst h
        simp
      · intro ⟨hle, h⟩
        by_contra hne
        rw [show i - n = (i - n - 1) + 1 by omega, List.getElem?_cons_succ] at h
        exact fresh (List.mem_of_getElem? h)
    · rw [beq_false_of_ne hk]
      simp only [ih rest]
      constructor
      · intro ⟨hle, h⟩
        refine ⟨by omega, ?_⟩
        rwa [show i - n = (i - (n + 1)) + 1 by omega, List.getElem?_cons_succ]
      · intro ⟨hle, h⟩
        by_cases heq : i = n
        · rw [heq, Nat.sub_self, List.getElem?_cons_zero, Option.some.injEq] at h
          exact absurd h.symm hk
        · rw [show i - n = (i - (n + 1)) + 1 by omega, List.getElem?_cons_succ] at h
          exact ⟨by omega, h⟩

theorem built_new {input : List Key} (nodup : input.Nodup) :
    Built input (new input : ProofBuilder D) [] [] [] where
  inputFirst := List.prefix_rfl
  nodup := nodup
  count := Nat.le_refl _
  lookup k i := by
    have := lookup_zipIdx nodup 0 k i
    simpa [new] using this
  leaves := .nil
  siblings := rfl
  topology := Topology.packs_nil
  slots := rfl

section Steps

variable {input : List Key} {b : ProofBuilder D} {rows : List (Row D)} {sibs : List (HashedNode D)}
  {bits : List Bool}

theorem LeafOf.mono {keys : List Key} {leaf : Leaf D} {row : Row D} (h : LeafOf keys leaf row)
    (more : List Key) : LeafOf (keys ++ more) leaf row := by
  have hlt := (List.getElem?_eq_some_iff.mp h.2.2).1
  exact ⟨h.1, h.2.1, by rw [List.getElem?_append_left hlt]; exact h.2.2⟩

/-- Interning keeps the tables and yields an index of the key. -/
theorem Built.internKey (h : Built input b rows sibs bits) (key : Key) :
    Tables input 1 (b.internKey key).2 rows sibs bits ∧
      (b.internKey key).2.keys[(b.internKey key).1]? = some key := by
  have count := h.count
  unfold ProofBuilder.internKey
  match hl : b.keyToIdx.lookup key with
  | some idx => exact ⟨{ h with count := Nat.le_succ_of_le h.count }, (h.lookup key idx).mp hl⟩
  | none =>
    have fresh : key ∉ b.keys := by
      intro hmem
      have ⟨i, hi⟩ := List.mem_iff_getElem?.mp hmem
      rw [(h.lookup key i).mpr hi] at hl
      cases hl
    refine ⟨⟨h.inputFirst.trans (List.prefix_append _ _), ?_, by simp; omega, fun k i => ?_, ?_,
      h.siblings, h.topology, h.slots⟩, by simp⟩
    · exact List.nodup_append.mpr ⟨h.nodup, by simp, fun a ha b hb => by
        rw [List.mem_singleton] at hb
        exact fun heq => fresh (hb ▸ heq ▸ ha)⟩
    · rw [List.lookup_append]
      by_cases hk : k = key
      · subst hk
        rw [hl]
        simp only [Option.none_or, List.lookup_cons, beq_self_eq_true, Option.some.injEq]
        constructor
        · intro hi
          simp [← hi]
        · intro hi
          rw [List.getElem?_append] at hi
          split at hi
          · exact absurd (List.mem_of_getElem? hi) fresh
          · next hge =>
            have := (List.getElem?_eq_some_iff.mp hi).1
            simp only [List.length_singleton] at this
            omega
      · rw [List.lookup_cons, beq_false_of_ne hk]
        simp only [List.lookup_nil, Option.or_none, h.lookup]
        rw [List.getElem?_append]
        split
        · rfl
        · next hge =>
          rw [List.getElem?_eq_none (by omega)]
          constructor
          · intro h
            cases h
          · intro h
            have hmem := List.mem_of_getElem? h
            exact absurd (List.mem_singleton.mp hmem) hk
    · exact h.leaves.imp fun leaf row hlr => hlr.mono _

/-- Emitting a leaf appends its row. -/
theorem Built.emitLeaf (h : Built input b rows sibs bits) (row : Row D)
    (fits : (Plan.inputs rows).length + row.inputs.length ≤ input.length) :
    Built input (b.emitLeaf row.key row.value row.depth (Plan.inputs rows).length row.inputs.length)
      (rows ++ [row]) sibs bits := by
  have ⟨h', hkey⟩ := h.internKey row.key
  unfold ProofBuilder.emitLeaf
  generalize b.internKey row.key = interned at h' hkey
  have ⟨keyIdx, b'⟩ := interned
  have hlen : b'.leaves.length = rows.length := h'.leaves.length_eq
  have count := h'.count
  refine ⟨h'.inputFirst, h'.nodup, by simp; omega, h'.lookup, ?_, h'.siblings, h'.topology, ?_⟩
  · exact List.rel_append h'.leaves (.cons ⟨rfl, rfl, hkey⟩ .nil)
  · dsimp only
    have hslots := length_slotsOf 0 rows
    have hin : Plan.inputs (rows ++ [row]) = Plan.inputs rows ++ row.inputs := by
      simp [Plan.inputs]
    rw [hlen, h'.slots, fillSlots, slotsOf_append, ← hslots, List.take_left, List.drop_append,
      List.append_assoc, Nat.zero_add, hin, List.length_append]
    congr 2
    rw [List.drop_eq_nil_of_le (by omega), List.nil_append, List.drop_replicate]
    congr 1
    omega

theorem Built.pushSplit (h : Built input b rows sibs bits) :
    Built input b.pushSplit rows sibs (bits ++ [true]) :=
  ⟨h.inputFirst, h.nodup, h.count, h.lookup, h.leaves, h.siblings, h.topology.push true, h.slots⟩

theorem Built.pushSibling (h : Built input b rows sibs bits) (n : HashedNode D) :
    Built input (b.pushSibling n) rows (sibs ++ [n]) (bits ++ [false]) :=
  ⟨h.inputFirst, h.nodup, h.count, h.lookup, h.leaves, by rw [← h.siblings]; rfl,
    h.topology.push false, h.slots⟩

end Steps

section Collect

variable {input ks ks' : List Key} {pl pl' : Plan D}
  {run run' : Nat → ProofBuilder D → CodecResult (ProofBuilder D)}

/-- Whatever was built before, the run writes the plan out behind it. -/
def Collects (input : List Key) (pl : Plan D) (ks : List Key)
    (run : Nat → ProofBuilder D → CodecResult (ProofBuilder D)) : Prop :=
  ∀ b rows sibs bits, Built input b rows sibs bits →
    (Plan.inputs rows).length + ks.length ≤ input.length →
    ∃ b', run (Plan.inputs rows).length b = .ok b' ∧
      Built input b' (rows ++ pl.rows) (sibs ++ pl.siblings) (bits ++ pl.bits)

theorem Collects.leaf (row : Row D) :
    Collects input (.leaf row) row.inputs fun offset b =>
      .ok (b.emitLeaf row.key row.value row.depth offset row.inputs.length) := by
  intro b rows sibs bits h fits
  refine ⟨_, rfl, ?_⟩
  simpa [Plan.rows, Plan.siblings, Plan.bits] using h.emitLeaf row fits

theorem Collects.beside (n : HashedNode D) (g : Bool) (h : Collects input pl ks run) :
    Collects input (.beside n g pl) ks fun offset b => run offset (b.pushSibling n) := by
  intro b rows sibs bits hb fits
  have ⟨b', hrun, hb'⟩ := h _ _ _ _ (hb.pushSibling n) fits
  refine ⟨b', hrun, ?_⟩
  simpa [Plan.rows, Plan.siblings, Plan.bits] using hb'

theorem Collects.split (h : Collects input pl ks run) (h' : Collects input pl' ks' run')
    (hks : Plan.inputs pl.rows = ks) :
    Collects input (.split pl pl') (ks ++ ks') fun offset b =>
      run offset b.pushSplit >>= run' (offset + ks.length) := by
  intro b rows sibs bits hb fits
  rw [List.length_append] at fits
  obtain ⟨b₁, hrun₁, hb₁⟩ := h _ _ _ _ hb.pushSplit (by omega)
  have hoffset : (Plan.inputs (rows ++ pl.rows)).length = (Plan.inputs rows).length + ks.length := by
    rw [← hks]
    simp [Plan.inputs]
  obtain ⟨b₂, hrun₂, hb₂⟩ := h' _ _ _ _ hb₁ (by omega)
  rw [hoffset] at hrun₂
  refine ⟨b₂, ok_bind_iff.mpr ⟨b₁, hrun₁, hrun₂⟩, ?_⟩
  simpa [Plan.rows, Plan.siblings, Plan.bits] using hb₂

variable {H : Hasher D} {rem : Nat}

/-- One step in an empty subtree that holds at least two keys. -/
theorem collectEmpty_succ {level : Nat} (several : ∀ k, ks ≠ [k]) (offset : Nat)
    (b : ProofBuilder D) :
    collectEmpty H (rem + 1) ks level offset b =
      let mid := slicePartitionPoint (fun k : Key => !k.getMsb level) ks
      if 0 < mid ∧ mid < ks.length then do
        let b ← collectEmpty H rem (ks.take mid) (level + 1) offset b.pushSplit
        collectEmpty H rem (ks.drop mid) (level + 1) (offset + mid) b
      else collectEmpty H rem ks (level + 1) offset (b.pushSibling (HashedNode.empty H)) := by
  match ks, several with
  | [], _ => rfl
  | [k], several => exact absurd rfl (several k)
  | _ :: _ :: _, _ => rfl

theorem collectEmpty_collects [DecidableEq D] (asked : Asked H rem ks []) :
    Collects input (plan H rem ks []) ks (collectEmpty H rem ks (256 - rem)) := by
  suffices ∀ es, Asked H rem ks es → es = [] →
      Collects input (plan H rem ks es) ks (collectEmpty H rem ks (256 - rem)) from this [] asked rfl
  intro es asked
  refine plan_induct (P := fun rem ks es pl => es = [] →
    Collects input pl ks (collectEmpty H rem ks (256 - rem))) ?_ ?_ ?_ asked
  · intro rem ks es a _ ha hes
    match answer_eq_some.mp ha with
    | .inl h => rw [h] at hes; cases hes
    | .inr ⟨_, hks, hdead⟩ =>
      subst hks
      rw [hdead]
      have hrun : collectEmpty H rem [a.1] (256 - rem) = fun offset b =>
          .ok (b.emitLeaf a.1 H.emptyHash (256 - rem) offset 1) := by
        funext offset b
        cases rem <;> rfl
      rw [hrun]
      exact Collects.leaf ⟨256 - rem, a.1, H.emptyHash, [a.1]⟩
  · intro rem ks es b asked hnone hself hother ih hes
    subst hes
    have several : ∀ k, ks ≠ [k] := fun k hk => by simp [hk, answer] at hnone
    have hbound := asked.seg.bound
    obtain ⟨hmid, _, _⟩ := asked.split (show 256 - (rem + 1) + (rem + 1) = 256 by omega)
    -- all keys are on one side, so the partition point is at an end
    have oneSided : ¬ (0 < (keySide rem false ks).length ∧
        (keySide rem false ks).length < ks.length) := by
      cases b with
      | false => rw [hself]; omega
      | true => rw [show keySide rem false ks = [] from hother]; simp
    have hrun : collectEmpty H (rem + 1) ks (256 - (rem + 1)) = fun offset b =>
        collectEmpty H rem ks (256 - rem) offset (b.pushSibling (HashedNode.empty H)) := by
      funext offset b
      rw [collectEmpty_succ several]
      simp only [hmid, if_neg oneSided, show 256 - (rem + 1) + 1 = 256 - rem by omega]
    rw [hrun, side_nil, side_nil, canon_nil]
    exact (ih rfl).beside _ _
  · intro rem ks es asked hnone both ih hes
    subst hes
    have several : ∀ k, ks ≠ [k] := fun k hk => by simp [hk, answer] at hnone
    have hbound := asked.seg.bound
    obtain ⟨hmid, htake, hdrop⟩ := asked.split (show 256 - (rem + 1) + (rem + 1) = 256 by omega)
    have twoSided : 0 < (keySide rem false ks).length ∧ (keySide rem false ks).length < ks.length := by
      have hl := List.length_pos_iff.mpr (both false)
      have hr := List.length_pos_iff.mpr (both true)
      have := congrArg List.length asked.keySides
      rw [List.length_append] at this
      omega
    have hrun : collectEmpty H (rem + 1) ks (256 - (rem + 1)) = fun offset b =>
        collectEmpty H rem (keySide rem false ks) (256 - rem) offset b.pushSplit >>=
          collectEmpty H rem (keySide rem true ks) (256 - rem)
            (offset + (keySide rem false ks).length) := by
      funext offset b
      rw [collectEmpty_succ several]
      simp only [htake, hdrop]
      simp only [hmid, if_pos twoSided, show 256 - (rem + 1) + 1 = 256 - rem by omega]
    have h := (ih false rfl).split (ih true rfl) (inputs_plan (asked.side (both false)))
    rw [asked.keySides] at h
    rw [hrun]
    exact h

variable {node : Reads D} {key : NodeKey} {es : List (Key × D)}

theorem childSummary_eq : childSummary H node key = Node.summary H (node.live key) := by
  unfold childSummary Reads.live
  match node key with
  | none | some (_, .empty) | some (_, .internal _) | some (_, .leaf _ _ _) => rfl

variable [DecidableEq D]

/-- An empty stored subtree is collected as one. -/
theorem collect_empty (hlevel : key.level + rem = 256) (stored : Stores H node rem key [])
    (asked : Asked H rem ks []) : Collects input (plan H rem ks []) ks (collect H node rem key ks) := by
  have hrun : collect H node rem key ks = collectEmpty H rem ks (256 - rem) := by
    have hlive : node.live key = none := stored.node
    funext offset b
    rw [collect.eq_def, if_neg (by simpa using asked.nonempty),
      show 256 - rem = key.level by omega]
    unfold Reads.live at hlive
    match hread : node key with
    | none | some (_, .empty) => rfl
    | some (_, .internal _) | some (_, .leaf _ _ _) => simp [hread] at hlive
  rw [hrun]
  exact collectEmpty_collects asked

/-- The children of a position with two entries store the two sides. -/
theorem stores_side (stored : Stores H node (rem + 1) key es) (two : 2 ≤ es.length) :
    Stores H node rem key.leftChild (side rem false es) ∧
      Stores H node rem key.rightChild (side rem true es) := by
  have h := Updater.childrenStore_of_stores stored
  rw [if_pos two] at h
  exact h

/-- A position with two entries is collected as an internal node. -/
theorem collect_internal (asked : Asked H (rem + 1) ks es)
    (stored : Stores H node (rem + 1) key es) (two : 2 ≤ es.length) :
    collect H node (rem + 1) key ks = collectInternal H node (collect H node rem) key ks := by
  have hlive : node.live key = some (.internal (canon H (rem + 1) es).hash) :=
    stored.node.trans (nodeOf_two two)
  funext offset b
  rw [collect.eq_def, if_neg (by simpa using asked.nonempty)]
  unfold Reads.live at hlive
  match hread : node key with
  | none | some (_, .empty) | some (_, .leaf _ _ _) => simp [hread] at hlive
  | some (_, .internal _) => rfl

omit [DecidableEq D] in
theorem two_of_unanswered (hnone : answer H ks es = none) (hes : es ≠ []) : 2 ≤ es.length := by
  match es, hes with
  | [e], _ => simp [answer] at hnone
  | _ :: _ :: _, _ => simp

/-- The builder collects the plan of the stored entries. -/
theorem collect_collects (hlevel : key.level + rem = 256) (stored : Stores H node rem key es)
    (asked : Asked H rem ks es) : Collects input (plan H rem ks es) ks (collect H node rem key ks) := by
  by_cases hes : es = []
  · subst hes
    exact collect_empty hlevel stored asked
  revert key
  refine plan_induct (P := fun rem ks es pl => es ≠ [] → ∀ {key : NodeKey}, key.level + rem = 256 →
    Stores H node rem key es → Collects input pl ks (collect H node rem key ks)) ?_ ?_ ?_ asked hes
  · intro rem ks es a asked ha hes key hlevel stored
    match answer_eq_some.mp ha with
    | .inr ⟨hnil, _, _⟩ => exact absurd hnil hes
    | .inl hes =>
      subst hes
      have hlive : node.live key = some (Node.mkLeaf H a.1 a.2) := stored.node
      have hrun : collect H node rem key ks = fun offset b =>
          .ok (b.emitLeaf a.1 a.2 (256 - rem) offset ks.length) := by
        funext offset b
        rw [collect.eq_def, if_neg (by simpa using asked.nonempty),
          show 256 - rem = key.level by omega]
        unfold Reads.live at hlive
        match hread : node key with
        | none | some (_, .empty) | some (_, .internal _) => simp [hread, Node.mkLeaf] at hlive
        | some (_, .leaf k v _) =>
          simp only [hread, Node.mkLeaf, Option.some.injEq, Node.leaf.injEq] at hlive
          rw [hlive.1, hlive.2.1]
      rw [hrun]
      exact Collects.leaf ⟨256 - rem, a.1, a.2, ks⟩
  · intro rem ks es b asked hnone hself hother ih hes key hlevel stored
    have two := two_of_unanswered hnone hes
    obtain ⟨hl, hr⟩ := stores_side stored two
    obtain ⟨_, htake, hdrop⟩ := asked.split hlevel
    have asked' := asked.side (b := b) (by rw [hself]; exact asked.nonempty)
    rw [hself] at asked'
    have child : ∀ ck : NodeKey, ck.level + rem = 256 → Stores H node rem ck (side rem b es) →
        Collects input (plan H rem ks (side rem b es)) ks (collect H node rem ck ks) := by
      intro ck hck hstored
      by_cases hnil : side rem b es = []
      · rw [hnil] at hstored asked' ⊢
        exact collect_empty hck hstored asked'
      · exact ih hnil hck hstored
    have summary : ∀ {c : Bool} {ck : NodeKey}, Stores H node rem ck (side rem c es) →
        childSummary H node ck = canon H rem (side rem c es) := by
      intro c ck hstored
      rw [childSummary_eq, hstored.node, toHashed_nodeOf (asked.seg.side c)]
    rw [collect_internal asked stored two]
    cases b with
    | false =>
      have hrun : collectInternal H node (collect H node rem) key ks = fun offset b =>
          collect H node rem key.leftChild ks offset
            (b.pushSibling (canon H rem (side rem true es))) := by
        funext offset b
        unfold collectInternal
        simp only [htake, hdrop, hself, summary hr]
        rw [List.isEmpty_eq_false_iff.mpr asked.nonempty, show keySide rem true ks = [] from hother]
        rfl
      rw [hrun]
      exact (child key.leftChild (by simp only [NodeKey.leftChild]; omega) hl).beside _ _
    | true =>
      have hrun : collectInternal H node (collect H node rem) key ks = fun offset b =>
          collect H node rem key.rightChild ks offset
            (b.pushSibling (canon H rem (side rem false es))) := by
        funext offset b
        unfold collectInternal
        simp only [htake, hdrop, hself, summary hl]
        rw [List.isEmpty_eq_false_iff.mpr asked.nonempty, show keySide rem false ks = [] from hother]
        rfl
      rw [hrun]
      exact (child key.rightChild (by simp only [NodeKey.rightChild]; omega) hr).beside _ _
  · intro rem ks es asked hnone both ih hes key hlevel stored
    have two := two_of_unanswered hnone hes
    obtain ⟨hl, hr⟩ := stores_side stored two
    obtain ⟨hmid, htake, hdrop⟩ := asked.split hlevel
    have hrun : collect H node (rem + 1) key ks = fun offset b =>
        collect H node rem key.leftChild (keySide rem false ks) offset b.pushSplit >>=
          collect H node rem key.rightChild (keySide rem true ks)
            (offset + (keySide rem false ks).length) := by
      rw [collect_internal asked stored two]
      funext offset b
      unfold collectInternal
      simp only [htake, hdrop]
      rw [List.isEmpty_eq_false_iff.mpr (both false), List.isEmpty_eq_false_iff.mpr (both true), hmid]
    have child : ∀ b (ck : NodeKey), ck.level + rem = 256 → Stores H node rem ck (side rem b es) →
        Collects input (plan H rem (keySide rem b ks) (side rem b es)) (keySide rem b ks)
          (collect H node rem ck (keySide rem b ks)) := by
      intro b ck hck hstored
      have asked' := asked.side (both b)
      by_cases hnil : side rem b es = []
      · rw [hnil] at hstored asked' ⊢
        exact collect_empty hck hstored asked'
      · exact ih b hnil hck hstored
    have h := (child false key.leftChild (by simp only [NodeKey.leftChild]; omega) hl).split
      (child true key.rightChild (by simp only [NodeKey.rightChild]; omega) hr)
      (inputs_plan (asked.side (both false)))
    rw [asked.keySides] at h
    rw [hrun]
    exact h

end Collect

end ProofBuilder

end Vprogs.Smt
