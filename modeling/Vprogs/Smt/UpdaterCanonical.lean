import Vprogs.Smt.Updater

/-!
The updater keeps trees canonical. Reading a tree that stores some entries, it
returns the node of the entries after the commitments; so the root of an update
is the root of the updated map. `Writes` says what it writes on the way.
-/
namespace Vprogs.Smt

namespace Updater

variable {D : Type} [DecidableEq D] {H : Hasher D} {ctx : Updater D} {rem : Nat} {key : NodeKey} {es cs : List (Key × D)}

/-- Keys below one position share the bits above it. -/
def Aligned (level : Nat) (ks : List Key) : Prop :=
  ∀ k ∈ ks, ∀ k' ∈ ks, ∀ i < level, k.getMsb i = k'.getMsb i

omit [DecidableEq D] in
/-- The bit that splits a position is ascending over sorted commitments, so the
partition point cuts them into the two sides. -/
theorem split_eq_sides (hlevel : key.level + (rem + 1) = 256)
    (sorted : cs.Pairwise fun a b => a.1 < b.1) (aligned : Aligned key.level (cs.map Prod.fst)) :
    cs.take (slicePartitionPoint (fun u => !u.1.getMsb key.level) cs) = side rem false cs ∧
      cs.drop (slicePartitionPoint (fun u => !u.1.getMsb key.level) cs) = side rem true cs := by
  rw [show key.level = 255 - rem by omega]
  refine partition_sides (side_append_side_of_agree (by omega)
    (sorted.imp fun h => BitVec.le_of_lt h) fun a ha b hb i hi => ?_)
  exact aligned a.1 (List.mem_map_of_mem ha) b.1 (List.mem_map_of_mem hb) i (by omega)

theorem segment_applyUpdates (hbound : rem ≤ 256) (live : ∀ e ∈ es, e.2 ≠ H.emptyHash)
    (nodup : (es.map Prod.fst).Nodup) (distinct : (cs.map Prod.fst).Nodup)
    (aligned : Aligned (256 - rem) (cs.map Prod.fst ++ es.map Prod.fst)) :
    Segment H rem (applyUpdates H cs es) where
  bound := hbound
  live := live_applyUpdates live
  nodup := nodup_applyUpdates distinct nodup
  agree := by
    have key_mem : ∀ e ∈ applyUpdates H cs es, e.1 ∈ cs.map Prod.fst ++ es.map Prod.fst := by
      intro e he
      rw [List.mem_append]
      match mem_applyUpdates.mp he with
      | .inl h => exact .inr (List.mem_map_of_mem h.1)
      | .inr h => exact .inl (List.mem_map_of_mem h.1)
    intro e he e' he' i hi
    exact aligned e.1 (key_mem e he) e'.1 (key_mem e' he') i hi

/-! ### What is written -/

section Written

omit [DecidableEq D]

/-- The writes that place a child. -/
def childWrites (ctx : Updater D) (child : Option (Node D)) (key : NodeKey) : WriteBatch D :=
  match child with
  | none =>
    if (ctx.node.live key).isSome then
      [.putNode key ctx.version .empty, .putStaleNode ⟨ctx.version, key, ctx.version⟩]
    else []
  | some node => [.putNode key ctx.version node]

/-- The writes that place the children of a position, unless one is lifted. -/
def joinWrites (ctx : Updater D) (key : NodeKey) (left right : Option (Node D)) : WriteBatch D :=
  match left, right with
  | none, none | some (.leaf _ _ _), none | none, some (.leaf _ _ _) => []
  | l, r => ctx.childWrites l key.leftChild ++ ctx.childWrites r key.rightChild

theorem writeChild_eq (child : Option (Node D)) (wb : WriteBatch D) :
    writeChild H ctx child key wb = (Node.summary H child, wb ++ ctx.childWrites child key) := by
  cases child with
  | none =>
    change (HashedNode.empty H, if (ctx.node.live key).isSome then _ else wb) = _
    unfold childWrites
    split <;> simp [Node.summary]
  | some node => rfl

theorem joinChildren_eq (left right : Option (Node D)) (wb : WriteBatch D) :
    joinChildren H ctx key left right wb =
      (Node.join H left right, wb ++ ctx.joinWrites key left right) := by
  rcases left with _ | (_ | _ | _) <;> rcases right with _ | (_ | _ | _) <;>
    simp [joinChildren, joinWrites, Node.join, writeChild_eq]

theorem markStale_eq (wb : WriteBatch D) : ctx.markStale key wb = wb ++ ctx.markStale key [] := by
  unfold markStale
  cases ctx.node key <;> simp

end Written

/-- What the updater writes at and below a position that stores `es`. Nothing is
placed at the position itself: its node goes to the caller. -/
inductive Writes (H : Hasher D) (ctx : Updater D) :
    Nat → NodeKey → List (Key × D) → List (Commitment D) → WriteBatch D → Prop
  | untouched {rem : Nat} {key : NodeKey} {es : List (Key × D)} : Writes H ctx rem key es [] []
  | stop {rem : Nat} {key : NodeKey} {es cs : List (Key × D)} (before : es.length ≤ 1)
      (after : (applyUpdates H cs es).length ≤ 1) :
      Writes H ctx rem key es cs (ctx.markStale key [])
  -- a leaf that is split is written out as commitments below an empty position
  | split {rem : Nat} {key : NodeKey} {es cs : List (Key × D)} (es₀ cs₀ : List (Key × D))
      {left right : WriteBatch D} (entries : es₀ = if 2 ≤ es.length then es else [])
      (same : (applyUpdates H cs₀ es₀).Perm (applyUpdates H cs es))
      (two : 2 ≤ es.length ∨ 2 ≤ (applyUpdates H cs es).length)
      (hleft : Writes H ctx rem key.leftChild (side rem false es₀) (side rem false cs₀) left)
      (hright : Writes H ctx rem key.rightChild (side rem true es₀) (side rem true cs₀) right) :
      Writes H ctx (rem + 1) key es cs (ctx.markStale key [] ++ (left ++ (right ++
        ctx.joinWrites key (nodeOf H rem (side rem false (applyUpdates H cs₀ es₀)))
          (nodeOf H rem (side rem true (applyUpdates H cs₀ es₀))))))

/-- What is written below a position whose commitments are split. -/
def SplitWrites (H : Hasher D) (ctx : Updater D) (rem : Nat) (key : NodeKey)
    (es cs : List (Key × D)) (ws : WriteBatch D) : Prop :=
  ∃ n left right, rem = n + 1 ∧
    Writes H ctx n key.leftChild (side n false es) (side n false cs) left ∧
    Writes H ctx n key.rightChild (side n true es) (side n true cs) right ∧
    ws = left ++ (right ++ ctx.joinWrites key (nodeOf H n (side n false (applyUpdates H cs es)))
      (nodeOf H n (side n true (applyUpdates H cs es))))

theorem SplitWrites.writes {es₀ cs₀ : List (Key × D)} {ws : WriteBatch D}
    (h : SplitWrites H ctx rem key es₀ cs₀ ws) (entries : es₀ = if 2 ≤ es.length then es else [])
    (same : (applyUpdates H cs₀ es₀).Perm (applyUpdates H cs es))
    (two : 2 ≤ es.length ∨ 2 ≤ (applyUpdates H cs es).length) :
    Writes H ctx rem key es cs (ctx.markStale key [] ++ ws) := by
  have ⟨n, left, right, hrem, hleft, hright, hws⟩ := h
  subst hrem hws
  exact .split es₀ cs₀ entries same two hleft hright

/-- Splitting yields the node of the updated entries once both recursions yield
the nodes of their sides. -/
theorem splitAndRecurse_eq {recurse : Recurse D} {wb left right : WriteBatch D}
    (hlevel : key.level + (rem + 1) = 256)
    (sorted : cs.Pairwise fun a b => a.1 < b.1) (aligned : Aligned key.level (cs.map Prod.fst))
    (seg : Segment H (rem + 1) es)
    (hleft : recurse key.leftChild (side rem false cs) wb =
      .ok (nodeOf H rem (side rem false es), wb ++ left))
    (hright : recurse key.rightChild (side rem true cs) (wb ++ left) =
      .ok (nodeOf H rem (side rem true es), wb ++ left ++ right)) :
    splitAndRecurse H ctx recurse key cs wb = .ok (nodeOf H (rem + 1) es,
      wb ++ (left ++ (right ++ ctx.joinWrites key (nodeOf H rem (side rem false es))
        (nodeOf H rem (side rem true es))))) := by
  obtain ⟨htake, hdrop⟩ := split_eq_sides hlevel sorted aligned
  have hlt : key.level < DEPTH := by
    unfold DEPTH
    omega
  unfold splitAndRecurse
  simp only [decide_eq_true hlt, htake, hdrop, check, if_true]
  rw [ok_bind, hleft, ok_bind]
  dsimp only
  rw [hright]
  change Except.ok (joinChildren H ctx key _ (nodeOf H rem (side rem true es)) _) = _
  rw [joinChildren_eq, nodeOf_succ seg, List.append_assoc, List.append_assoc]

/-- One live commitment makes a leaf, several are split. -/
theorem resolveLeaves_eq {split : Recurse D} {P : WriteBatch D → Prop}
    (hstop : (applyUpdates H cs []).length ≤ 1 → P [])
    (hsplit : 2 ≤ (applyUpdates H cs []).length → ∀ wb, ∃ ws,
      split key cs wb = .ok (nodeOf H rem (applyUpdates H cs []), wb ++ ws) ∧ P ws)
    (wb : WriteBatch D) :
    ∃ ws, resolveLeaves H split key cs wb = .ok (nodeOf H rem (applyUpdates H cs []), wb ++ ws) ∧
      P ws := by
  have hlive : applyUpdates H cs [] = cs.filter fun u => decide (u.2 ≠ H.emptyHash) := by
    simp [applyUpdates]
  rw [hlive] at hstop hsplit ⊢
  unfold resolveLeaves
  generalize cs.filter (fun u => decide (u.2 ≠ H.emptyHash)) = live at hstop hsplit ⊢
  rcases live with _ | ⟨e, _ | _⟩
  · exact ⟨[], by rw [List.append_nil]; rfl, hstop (by simp)⟩
  · exact ⟨[], by rw [List.append_nil]; rfl, hstop (by simp)⟩
  · exact hsplit (by simp) wb

omit [DecidableEq D] in
/-- Sorted commitments are cut where an existing key belongs. -/
theorem exists_cut (k : Key) (sorted : cs.Pairwise fun a b => a.1 < b.1) :
    ∃ lo hi, cs = lo ++ hi ∧ (∀ u ∈ lo, u.1 < k) ∧ ∀ u ∈ hi, ¬ u.1 < k := by
  induction cs with
  | nil => exact ⟨[], [], rfl, by simp, by simp⟩
  | cons u cs ih =>
    have ⟨above, rest⟩ := List.pairwise_cons.mp sorted
    by_cases hu : u.1 < k
    · have ⟨lo, hi, heq, hlo, hhi⟩ := ih rest
      refine ⟨u :: lo, hi, by rw [heq, List.cons_append], ?_, hhi⟩
      exact fun x hx => (List.mem_cons.mp hx).elim (fun h => h ▸ hu) (hlo x)
    · refine ⟨[], u :: cs, rfl, by simp, fun x hx => ?_⟩
      match List.mem_cons.mp hx with
      | .inl h => exact h ▸ hu
      | .inr h => exact fun hlt => hu (BitVec.lt_trans (above x h) hlt)

omit [DecidableEq D] in
/-- Merging keeps the commitments sorted and adds the existing leaf only when
they leave its key alone. -/
theorem mergeExisting_spec (existing : Key × D) (sorted : cs.Pairwise fun a b => a.1 < b.1) :
    (mergeExisting existing cs).Pairwise (fun a b => a.1 < b.1) ∧
      (existing.1 ∈ cs.map Prod.fst ∧ mergeExisting existing cs = cs ∨
        existing.1 ∉ cs.map Prod.fst ∧ (mergeExisting existing cs).Perm (existing :: cs)) := by
  have ⟨lo, hi, heq, hlo, hhi⟩ := exists_cut existing.1 sorted
  have hpos : slicePartitionPoint (fun u => decide (u.1 < existing.1)) cs = lo.length := by
    rw [heq]
    exact slicePartitionPoint_append (fun u hu => decide_eq_true (hlo u hu))
      (fun u hu => decide_eq_false (hhi u hu))
  have hget : cs[lo.length]? = hi.head? := by
    rw [heq, List.getElem?_append_right (Nat.le_refl _), Nat.sub_self, List.head?_eq_getElem?]
  have notlo : ∀ u ∈ lo, u.1 ≠ existing.1 := fun u hu => BitVec.ne_of_lt (hlo u hu)
  rw [heq, List.pairwise_append] at sorted
  unfold mergeExisting
  simp only [hpos, hget]
  by_cases first : hi.head?.any (fun u => u.1 == existing.1) = true
  · rw [if_pos first]
    refine ⟨by rw [heq]; exact List.pairwise_append.mpr sorted, .inl ⟨?_, rfl⟩⟩
    match hi, first with
    | u :: hi, first =>
      rw [heq, ← eq_of_beq first]
      simp
  · rw [if_neg first, heq, List.take_left, List.drop_left]
    -- every commitment from the cut on lies strictly above the existing key
    have above : ∀ u ∈ hi, existing.1 < u.1 := by
      match hi, first, hhi, sorted with
      | [], _, _, _ => simp
      | v :: hi, first, hhi, sorted =>
        have hv : existing.1 < v.1 := by
          have hne : v.1 ≠ existing.1 := fun h => first (by simp [h])
          have hge := hhi v (by simp)
          bv_omega
        intro u hu
        match List.mem_cons.mp hu with
        | .inl h => exact h ▸ hv
        | .inr h => exact BitVec.lt_trans hv ((List.pairwise_cons.mp sorted.2.1).1 u h)
    refine ⟨?_, .inr ⟨?_, List.perm_middle⟩⟩
    · refine List.pairwise_append.mpr ⟨sorted.1, List.pairwise_cons.mpr ⟨above, sorted.2.1⟩, ?_⟩
      intro a ha b hb
      match List.mem_cons.mp hb with
      | .inl h => exact h ▸ hlo a ha
      | .inr h => exact sorted.2.2 a ha b h
    · intro hmem
      have ⟨u, hu, hk⟩ := List.mem_map.mp hmem
      match List.mem_append.mp hu with
      | .inl h => exact notlo u h hk
      | .inr h => exact BitVec.ne_of_lt (above u h) hk.symm

/-- The entries after merging are those after updating the leaf in place. -/
theorem applyUpdates_mergeExisting (existing : Key × D) (live : existing.2 ≠ H.emptyHash)
    (sorted : cs.Pairwise fun a b => a.1 < b.1) :
    (applyUpdates H (mergeExisting existing cs) []).Perm (applyUpdates H cs [existing]) := by
  unfold applyUpdates
  rw [List.filter_nil, List.nil_append]
  match (mergeExisting_spec existing sorted).2 with
  | .inl ⟨hmem, heq⟩ =>
    rw [heq, List.filter_cons_of_neg (by simpa using hmem)]
    exact List.Perm.refl _
  | .inr ⟨hmem, hperm⟩ =>
    have h := hperm.filter fun u => decide (u.2 ≠ H.emptyHash)
    rw [List.filter_cons_of_pos (by simpa using live)] at h
    rw [List.filter_cons_of_pos (by simpa using hmem)]
    exact h

omit [DecidableEq D] in
theorem Aligned.of_subset {level : Nat} {ks ks' : List Key} (h : Aligned level ks)
    (sub : ∀ k ∈ ks', k ∈ ks) : Aligned level ks' :=
  fun k hk k' hk' => h k (sub k hk) k' (sub k' hk')

/-- The children of a position store the two sides of `es`. -/
def ChildrenStore (H : Hasher D) (node : Reads D) : Nat → NodeKey → List (Key × D) → Prop
  | 0, _, _ => True
  | rem + 1, key, es =>
    Stores H node rem key.leftChild (side rem false es) ∧
      Stores H node rem key.rightChild (side rem true es)

/-- Going on below a position yields the node of the updated entries, whenever
two entries meet there. -/
def Splits (H : Hasher D) (ctx : Updater D) (rem : Nat) (key : NodeKey) (split : Recurse D) : Prop :=
  ∀ cs es, ChildrenStore H ctx.node rem key es → cs.Pairwise (fun a b => a.1 < b.1) →
    Aligned key.level (cs.map Prod.fst ++ es.map Prod.fst) → Segment H rem es →
    2 ≤ es.length ∨ 2 ≤ (applyUpdates H cs es).length →
    ∀ wb, ∃ ws, split key cs wb = .ok (nodeOf H rem (applyUpdates H cs es), wb ++ ws) ∧
      SplitWrites H ctx rem key es cs ws

theorem childrenStore_of_stores {node : Reads D} (h : Stores H node rem key es) :
    ChildrenStore H node rem key (if 2 ≤ es.length then es else []) := by
  cases rem with
  | zero => trivial
  | succ rem =>
    have ⟨_, hl, hr⟩ := h
    unfold below at hl hr
    split <;> simp_all [ChildrenStore]

omit [DecidableEq D] in
theorem nodup_of_sorted (sorted : cs.Pairwise fun a b => a.1 < b.1) : (cs.map Prod.fst).Nodup := by
  rw [List.nodup_iff_pairwise_ne, List.pairwise_map]
  exact sorted.imp fun h => BitVec.ne_of_lt h

omit [DecidableEq D] in
/-- One side of a position agrees on the bit that made it a side, too. -/
theorem aligned_side (hbit : key.level = 255 - rem) (b : Bool)
    (aligned : Aligned key.level (cs.map Prod.fst ++ es.map Prod.fst)) :
    Aligned (key.level + 1) ((side rem b cs).map Prod.fst ++ (side rem b es).map Prod.fst) := by
  have keys : ∀ k ∈ (side rem b cs).map Prod.fst ++ (side rem b es).map Prod.fst,
      k ∈ cs.map Prod.fst ++ es.map Prod.fst ∧ k.getMsb key.level = b := by
    intro k hk
    rw [← List.map_append, List.mem_map] at hk
    have ⟨e, he, hek⟩ := hk
    rw [← List.map_append, List.mem_map, hbit, ← hek]
    match List.mem_append.mp he with
    | .inl h => exact ⟨⟨e, List.mem_append_left _ (mem_side.mp h).1, rfl⟩, (mem_side.mp h).2⟩
    | .inr h => exact ⟨⟨e, List.mem_append_right _ (mem_side.mp h).1, rfl⟩, (mem_side.mp h).2⟩
  intro k hk k' hk' i hi
  match Nat.lt_succ_iff_lt_or_eq.mp hi with
  | .inl hlt => exact aligned k (keys k hk).1 k' (keys k' hk').1 i hlt
  | .inr heq => rw [heq, (keys k hk).2, (keys k' hk').2]

/-- What a leaf position returns: the node of the entry after the commitments. -/
theorem updateAtLeaf_eq {split : Recurse D} {e : Key × D} (live : e.2 ≠ H.emptyHash)
    (hbound : rem ≤ 256) (splits : Splits H ctx rem key split)
    (children : ChildrenStore H ctx.node rem key []) (sorted : cs.Pairwise fun a b => a.1 < b.1)
    (aligned : Aligned key.level (cs.map Prod.fst ++ [e.1])) (wb : WriteBatch D) :
    ∃ ws, updateAtLeaf H ctx split e key cs wb = .ok (nodeOf H rem (applyUpdates H cs [e]), wb ++ ws) ∧
      Writes H ctx rem key [e] cs ws := by
  unfold updateAtLeaf
  cases h : replacesLeaf e cs with
  | some newVh =>
    have only : cs = [(e.1, newVh)] := by
      rcases cs with _ | ⟨u, _ | _⟩
      · cases h
      · simp only [replacesLeaf, Option.ite_none_right_eq_some, Option.some.injEq] at h
        exact congrArg (fun u => [u]) (Prod.ext h.1 h.2)
      · cases h
    have hnew : applyUpdates H cs [e] = if newVh = H.emptyHash then [] else [(e.1, newVh)] := by
      by_cases hdead : newVh = H.emptyHash <;> simp [applyUpdates, only, hdead]
    refine ⟨ctx.markStale key [], ?_, .stop (by simp) (by rw [hnew]; split <;> simp)⟩
    dsimp only
    rw [hnew, ← markStale_eq]
    split <;> rfl
  | none =>
    obtain ⟨sorted', cases'⟩ := mergeExisting_spec e sorted
    have sub : ∀ k ∈ (mergeExisting e cs).map Prod.fst, k ∈ cs.map Prod.fst ++ [e.1] := by
      rcases cases' with ⟨_, heq⟩ | ⟨_, hperm⟩
      · rw [heq]; exact fun k hk => List.mem_append_left _ hk
      · intro k hk
        rw [(hperm.map Prod.fst).mem_iff, List.map_cons, List.mem_cons] at hk
        simpa [or_comm] using hk
    have same := applyUpdates_mergeExisting e live sorted
    have stop : (applyUpdates H (mergeExisting e cs) []).length ≤ 1 →
        Writes H ctx rem key [e] cs (ctx.markStale key [] ++ []) := fun short => by
      rw [List.append_nil]
      exact .stop (by simp) (by rw [← same.length_eq]; exact short)
    have split : 2 ≤ (applyUpdates H (mergeExisting e cs) []).length → ∀ wb, ∃ ws,
        split key (mergeExisting e cs) wb =
          .ok (nodeOf H rem (applyUpdates H (mergeExisting e cs) []), wb ++ ws) ∧
        Writes H ctx rem key [e] cs (ctx.markStale key [] ++ ws) := fun two wb => by
      obtain ⟨ws, hws, hsplit⟩ := splits (mergeExisting e cs) [] children sorted'
        (by simpa using aligned.of_subset sub) (Segment.nil hbound) (.inr two) wb
      exact ⟨ws, hws, hsplit.writes rfl same (.inr (by rw [← same.length_eq]; exact two))⟩
    obtain ⟨ws, hws, hwrites⟩ := resolveLeaves_eq
      (P := fun ws => Writes H ctx rem key [e] cs (ctx.markStale key [] ++ ws)) stop split
      (ctx.markStale key wb)
    refine ⟨_, ?_, hwrites⟩
    rw [← nodeOf_perm same, ← List.append_assoc, ← markStale_eq]
    exact hws

/-- One position returns the node of the updated entries. -/
theorem updateNode_eq {split : Recurse D} (splits : Splits H ctx rem key split)
    (stored : Stores H ctx.node rem key es) (seg : Segment H rem es)
    (sorted : cs.Pairwise fun a b => a.1 < b.1)
    (aligned : Aligned key.level (cs.map Prod.fst ++ es.map Prod.fst)) (wb : WriteBatch D) :
    ∃ ws, updateNode H ctx split key cs wb = .ok (nodeOf H rem (applyUpdates H cs es), wb ++ ws) ∧
      Writes H ctx rem key es cs ws := by
  have hnode := stored.node
  have children := childrenStore_of_stores stored
  unfold updateNode
  by_cases untouched : cs = []
  · subst untouched
    exact ⟨[], by rw [applyUpdates_nil, ← hnode, List.append_nil]; rfl, .untouched⟩
  rw [if_neg (by simpa using untouched)]
  unfold Reads.live at hnode
  match es, seg, aligned, hnode, children with
  | [], seg, aligned, hnode, children =>
    have stop : (applyUpdates H cs []).length ≤ 1 →
        Writes H ctx rem key [] cs (ctx.markStale key [] ++ []) := fun short => by
      rw [List.append_nil]
      exact .stop (by simp) short
    have split : 2 ≤ (applyUpdates H cs []).length → ∀ wb, ∃ ws,
        split key cs wb = .ok (nodeOf H rem (applyUpdates H cs []), wb ++ ws) ∧
        Writes H ctx rem key [] cs (ctx.markStale key [] ++ ws) := fun two wb => by
      have ⟨ws, hws, hsplit⟩ := splits cs [] children sorted aligned seg (.inr two) wb
      exact ⟨ws, hws, hsplit.writes rfl (.refl _) (.inr two)⟩
    have ⟨ws, hws, hwrites⟩ := resolveLeaves_eq
      (P := fun ws => Writes H ctx rem key [] cs (ctx.markStale key [] ++ ws)) stop split
      (ctx.markStale key wb)
    rw [markStale_eq, List.append_assoc] at hws
    refine ⟨_, ?_, hwrites⟩
    match hread : ctx.node key with
    | none =>
      have unmarked : ctx.markStale key [] = [] := by simp [markStale, hread]
      rw [← hws, unmarked, List.append_nil]
    | some (_, .empty) => rw [← hws, ← markStale_eq]
    | some (_, .internal _) | some (_, .leaf _ _ _) => simp [hread, nodeOf] at hnode
  | [e], seg, aligned, hnode, children =>
    match hread : ctx.node key with
    | none | some (_, .empty) | some (_, .internal _) => simp [hread, nodeOf, Node.mkLeaf] at hnode
    | some (_, .leaf k v _) =>
      simp only [hread, nodeOf, Node.mkLeaf, Option.some.injEq, Node.leaf.injEq] at hnode
      rw [hnode.1, hnode.2.1]
      exact updateAtLeaf_eq (seg.live e (by simp)) seg.bound splits children sorted aligned wb
  | a :: b :: es, seg, aligned, hnode, children =>
    match hread : ctx.node key with
    | none | some (_, .empty) | some (_, .leaf _ _ _) => simp [hread, nodeOf] at hnode
    | some (_, .internal _) =>
      rw [if_pos (by simp)] at children
      have ⟨ws, hws, hsplit⟩ :=
        splits cs _ children sorted aligned seg (.inl (by simp)) (ctx.markStale key wb)
      refine ⟨_, ?_, hsplit.writes (by simp) (.refl _) (.inl (by simp))⟩
      rw [← List.append_assoc, ← markStale_eq]
      exact hws

/-- The segment bounds the entries a depth-256 position can hold, so nothing is
split there. -/
theorem splits_zero {split : Recurse D} (hlevel : key.level = 256) : Splits H ctx 0 key split := by
  intro cs es _ sorted aligned seg two
  have seg' := segment_applyUpdates seg.bound seg.live seg.nodup (nodup_of_sorted sorted)
    (by rwa [Nat.sub_zero, ← hlevel])
  have := seg.length_le_one
  have := seg'.length_le_one
  omega

/-- The updater returns the node of the updated entries. -/
theorem updateSubtree_eq (hlevel : key.level + rem = 256) (stored : Stores H ctx.node rem key es)
    (seg : Segment H rem es) (sorted : cs.Pairwise fun a b => a.1 < b.1)
    (aligned : Aligned key.level (cs.map Prod.fst ++ es.map Prod.fst)) (wb : WriteBatch D) :
    ∃ ws, updateSubtree H ctx rem key cs wb = .ok (nodeOf H rem (applyUpdates H cs es), wb ++ ws) ∧
      Writes H ctx rem key es cs ws := by
  -- induction on the levels below; a step only has to know how its sides go on
  induction rem generalizing key es cs wb with
  | zero => exact updateNode_eq (splits_zero hlevel) stored seg sorted aligned wb
  | succ rem ih =>
    refine updateNode_eq ?_ stored seg sorted aligned wb
    intro cs es children sorted aligned seg _ wb
    have hbit : key.level = 255 - rem := by omega
    have below : ∀ b, Aligned (key.level + 1)
        ((side rem b cs).map Prod.fst ++ (side rem b es).map Prod.fst) :=
      fun b => aligned_side hbit b aligned
    have seg' := segment_applyUpdates seg.bound seg.live seg.nodup (nodup_of_sorted sorted)
      (by rwa [show 256 - (rem + 1) = key.level by omega])
    have sides : ∀ b, (side rem b cs).Pairwise fun a b => a.1 < b.1 :=
      fun b => sorted.sublist List.filter_sublist
    have ⟨left, hleft, lwrites⟩ := ih (by simp only [NodeKey.leftChild]; omega) children.1
      (seg.side false) (sides false) (below false) wb
    have ⟨right, hright, rwrites⟩ := ih (by simp only [NodeKey.rightChild]; omega) children.2
      (seg.side true) (sides true) (below true) (wb ++ left)
    rw [← side_applyUpdates] at hleft hright
    exact ⟨_, splitAndRecurse_eq hlevel sorted
      (aligned.of_subset fun k hk => List.mem_append_left _ hk) seg' hleft hright,
      rem, left, right, rfl, lwrites, rwrites, rfl⟩

omit [DecidableEq D] in
theorem dedupLast_subset : ∀ {us : List (Key × D)}, ∀ u ∈ dedupLast us, u ∈ us
  | [], _, h => h
  | [_], _, h => h
  | a :: b :: rest, u, h => by
      unfold dedupLast at h
      split at h
      · exact List.mem_cons_of_mem _ (dedupLast_subset u h)
      · match List.mem_cons.mp h with
        | .inl h => exact List.mem_cons.mpr (.inl h)
        | .inr h => exact List.mem_cons_of_mem _ (dedupLast_subset u h)

omit [DecidableEq D] in
theorem sorted_dedupLast : ∀ {us : List (Key × D)}, us.Pairwise (fun a b => a.1 ≤ b.1) →
    (dedupLast us).Pairwise fun a b => a.1 < b.1
  | [], _ => List.Pairwise.nil
  | [a], _ => List.pairwise_singleton _ a
  | a :: b :: rest, h => by
      have ⟨least, h'⟩ := List.pairwise_cons.mp h
      unfold dedupLast
      split
      · exact sorted_dedupLast h'
      · next hne =>
        refine List.pairwise_cons.mpr ⟨fun u hu => ?_, sorted_dedupLast h'⟩
        have hb := BitVec.lt_of_le_ne (least b (by simp)) hne
        match List.mem_cons.mp (dedupLast_subset u hu) with
        | .inl h => exact h ▸ hb
        | .inr h =>
          have hu := (List.pairwise_cons.mp h').1 u h
          bv_omega

omit [DecidableEq D] in
/-- What is left of sorted commitments is the last one of every key. -/
theorem mem_dedupLast : ∀ {us : List (Key × D)}, us.Pairwise (fun a b => a.1 ≤ b.1) → ∀ {u},
    u ∈ dedupLast us ↔ (us.filter fun v => v.1 == u.1).getLast? = some u
  | [], _, u => by simp [dedupLast]
  | [a], _, u => by
      by_cases hk : a.1 = u.1
      · simp [dedupLast, hk, eq_comm]
      · have hne : u ≠ a := fun h => hk (congrArg Prod.fst h.symm)
        simp [dedupLast, hk, hne]
  | a :: b :: rest, h, u => by
      have ⟨least, h'⟩ := List.pairwise_cons.mp h
      have ih := mem_dedupLast h' (u := u)
      unfold dedupLast
      split
      · next same =>
        rw [ih]
        by_cases hk : a.1 = u.1
        · have hb : b.1 = u.1 := same ▸ hk
          simp [hk, hb]
        · simp [hk]
      · next hne =>
        -- the first key is below all others
        have above : ∀ v ∈ b :: rest, v.1 ≠ a.1 := by
          intro v hv heq
          have hb := BitVec.lt_of_le_ne (least b (by simp)) hne
          match List.mem_cons.mp hv with
          | .inl h => exact hne (h ▸ heq).symm
          | .inr h =>
            have hv := (List.pairwise_cons.mp h').1 v h
            bv_omega
        rw [List.mem_cons, ih]
        by_cases hk : a.1 = u.1
        · have hrest : (b :: rest).filter (fun v => v.1 == u.1) = [] := by
            rw [List.filter_eq_nil_iff]
            exact fun v hv => by simpa [← hk] using above v hv
          have hall : (a :: b :: rest).filter (fun v => v.1 == u.1) = [a] := by
            rw [← hrest]
            exact List.filter_cons_of_pos (by simpa using hk)
          rw [hrest, hall]
          simp [eq_comm]
        · have hall : (a :: b :: rest).filter (fun v => v.1 == u.1) =
              (b :: rest).filter fun v => v.1 == u.1 :=
            List.filter_cons_of_neg (by simpa using hk)
          rw [hall]
          exact ⟨fun h => h.resolve_left fun h => hk (congrArg Prod.fst h.symm), .inr⟩

/-- The entries after the last write of every key are those of the written map. -/
theorem mem_applyUpdates_dedupLast (S : StateMap H) {e : Key × D} :
    e ∈ applyUpdates H (dedupLast (sortByKey cs)) S.entries ↔ e ∈ (S.setAll cs).entries := by
  have hmem : ∀ u, u ∈ dedupLast (sortByKey cs) ↔ (cs.filter fun v => v.1 == u.1).getLast? = some u :=
    fun u => by rw [mem_dedupLast (pairwise_sortByKey cs), filter_sortByKey]
  rw [mem_applyUpdates, StateMap.mem_iff_get, StateMap.mem_iff_get, StateMap.get_setAll, hmem]
  cases hlast : (cs.filter fun v => v.1 == e.1).getLast? with
  | none =>
    have fresh : e.1 ∉ (dedupLast (sortByKey cs)).map Prod.fst := by
      intro h
      have ⟨u, hu, hk⟩ := List.mem_map.mp h
      rw [hmem, hk, hlast] at hu
      cases hu
    simp [fresh]
  | some u =>
    have hk : u.1 = e.1 := by
      simpa using (List.mem_filter.mp (List.mem_of_getLast? hlast)).2
    have hu : u ∈ dedupLast (sortByKey cs) := by rw [hmem, hk, hlast]
    have written : e.1 ∈ (dedupLast (sortByKey cs)).map Prod.fst := hk ▸ List.mem_map_of_mem hu
    have heq : u = e ↔ u.2 = e.2 := ⟨fun h => h ▸ rfl, fun h => Prod.ext hk h⟩
    simp [written, heq]

theorem applyUpdates_dedupLast_perm (S : StateMap H) (cs : List (Key × D)) :
    (applyUpdates H (dedupLast (sortByKey cs)) S.entries).Perm (S.setAll cs).entries := by
  have distinct := nodup_of_sorted (sorted_dedupLast (pairwise_sortByKey cs))
  exact (List.perm_ext_iff_of_nodup ((nodup_applyUpdates distinct S.segment.nodup).of_map _)
    ((S.setAll cs).segment.nodup.of_map _)).mpr fun e => mem_applyUpdates_dedupLast S

end Updater

namespace Tree

variable {D : Type} [DecidableEq D] {H : Hasher D}

omit [DecidableEq D] in
theorem root_eq_live (node : Reads D) : root H node = (Node.summary H (node.live NodeKey.ROOT)).hash := by
  unfold root Reads.live
  match node NodeKey.ROOT with
  | none | some (_, .empty) | some (_, .internal _) | some (_, .leaf _ _ _) => rfl

/-- The root of a stored tree is the root of its map. -/
theorem root_eq {node : Reads D} {S : StateMap H}
    (stored : Stores H node DEPTH NodeKey.ROOT S.entries) : root H node = S.root := by
  rw [root_eq_live, stored.node, toHashed_nodeOf S.segment]
  rfl

/-- Applying commitments returns the root of the map after them, and places the
root node on top of what was written below it. -/
theorem apply_eq {node : Reads D} {S : StateMap H}
    (stored : Stores H node DEPTH NodeKey.ROOT S.entries) (cs : List (Commitment D)) (version : Nat) :
    ∃ ws, Updater.apply H ⟨node, version⟩ cs = .ok ((S.setAll cs).root, ws ++
        [.putNode NodeKey.ROOT version ((nodeOf H DEPTH (S.setAll cs).entries).getD .empty)]) ∧
      Updater.Writes H ⟨node, version⟩ DEPTH NodeKey.ROOT S.entries
        (Updater.dedupLast (sortByKey cs)) ws := by
  have sorted := Updater.sorted_dedupLast (pairwise_sortByKey cs)
  have anyKeys : ∀ ks, Updater.Aligned 0 ks := fun _ _ _ _ _ i hi => absurd hi (Nat.not_lt_zero i)
  have ⟨ws, hsub, hwrites⟩ : ∃ ws, Updater.updateSubtree H ⟨node, version⟩ DEPTH NodeKey.ROOT
      (Updater.dedupLast (sortByKey cs)) [] = .ok (nodeOf H DEPTH
        (applyUpdates H (Updater.dedupLast (sortByKey cs)) S.entries), [] ++ ws) ∧
      Updater.Writes H ⟨node, version⟩ DEPTH NodeKey.ROOT S.entries
        (Updater.dedupLast (sortByKey cs)) ws :=
    Updater.updateSubtree_eq rfl stored S.segment sorted (anyKeys _) []
  refine ⟨ws, ?_, hwrites⟩
  rw [nodeOf_perm (Updater.applyUpdates_dedupLast_perm S cs), List.nil_append] at hsub
  have hroot := congrArg HashedNode.hash (toHashed_nodeOf (S.setAll cs).segment)
  change _ = (S.setAll cs).root at hroot
  unfold Updater.apply
  rw [hsub, ← hroot]
  generalize nodeOf H DEPTH (S.setAll cs).entries = top
  match top with
  | none | some .empty | some (.internal _) | some (.leaf _ _ _) => rfl

/-- An update returns the root of the map after the commitments in order. -/
theorem update_root {node : Reads D} {S : StateMap H}
    (stored : Stores H node DEPTH NodeKey.ROOT S.entries) (cs : List (Commitment D)) {version : Nat}
    (hversion : 0 < version) (genesis : version = 1 → S.entries = []) :
    ∃ wb, update H node cs version = .ok ((S.setAll cs).root, wb) := by
  unfold update
  rw [decide_eq_true hversion]
  by_cases hcs : cs = []
  · subst hcs
    refine ⟨[], ?_⟩
    change Except.ok (if version - 1 = 0 then H.emptyHash else root H node, []) = _
    by_cases hgen : version = 1
    · rw [if_pos (by omega)]
      unfold StateMap.root StateMap.setAll
      rw [List.foldl_nil, genesis hgen, canon_nil]
      rfl
    · rw [if_neg (by omega), root_eq stored]
      rfl
  have ⟨ws, happly, _⟩ := apply_eq stored cs version
  match cs, hcs with
  | _ :: _, _ => exact ⟨_, happly⟩

end Tree

end Vprogs.Smt
