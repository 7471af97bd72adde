import Vprogs.Smt.UpdaterCanonical

/-!
What an update leaves readable. Its writes sit strictly below the position they
were made for, so the two sides of a position do not meet. As long as no position
with two entries is left with fewer, reading the writes on top of the old nodes
gives the canonical tree of the new entries again.
-/
namespace Vprogs.Smt

/-! ### Positions -/

namespace NodeKey

/-- The bits past the level are clear. -/
def Tight (k : NodeKey) : Prop := ∀ i, k.level ≤ i → k.path.getMsb i = false

/-- `k` is `key` or a position below it. -/
def Under (key k : NodeKey) : Prop :=
  key.level ≤ k.level ∧ ∀ i < key.level, k.path.getMsb i = key.path.getMsb i

theorem tight_root : ROOT.Tight := fun i _ => by simp [ROOT, Key.getMsb]

theorem Under.refl (k : NodeKey) : k.Under k := ⟨Nat.le_refl _, fun _ _ => rfl⟩

theorem Under.trans {a b c : NodeKey} (h : a.Under b) (h' : b.Under c) : a.Under c :=
  ⟨Nat.le_trans h.1 h'.1, fun i hi => (h'.2 i (Nat.lt_of_lt_of_le hi h.1)).trans (h.2 i hi)⟩

variable {key k : NodeKey}

theorem getMsb_rightChild (hlevel : key.level < 256) (i : Nat) :
    key.rightChild.path.getMsb i = (key.path.getMsb i || decide (i = key.level)) := by
  change (key.path ||| ((1 <<< (255 - key.level) : Nat) : Key)).getMsbD i = _
  rw [BitVec.getMsbD_or]
  congr 1
  by_cases hi : i < 256
  · have small : 2 ^ (255 - key.level) < 2 ^ 256 := Nat.pow_lt_pow_right (by omega) (by omega)
    have bit := Key.getMsb_eq_testBit ((1 <<< (255 - key.level) : Nat) : Key) hi
    rw [Key.getMsb, BitVec.natCast_eq_ofNat, BitVec.toNat_ofNat, Nat.one_shiftLeft,
      Nat.mod_eq_of_lt small, Nat.testBit_two_pow] at bit
    rw [BitVec.natCast_eq_ofNat, Nat.one_shiftLeft, bit, decide_eq_decide]
    omega
  · rw [BitVec.getMsbD_of_ge _ _ (by omega)]
    exact (decide_eq_false (by omega)).symm

theorem under_leftChild : key.Under key.leftChild := ⟨Nat.le_succ _, fun _ _ => rfl⟩

theorem under_rightChild (hlevel : key.level < 256) : key.Under key.rightChild := by
  refine ⟨Nat.le_succ _, fun i hi => ?_⟩
  rw [getMsb_rightChild hlevel]
  simp [show i ≠ key.level by omega]

theorem Tight.leftChild (h : key.Tight) : key.leftChild.Tight := fun i hi =>
  h i (Nat.le_of_succ_le hi)

theorem Tight.rightChild (h : key.Tight) (hlevel : key.level < 256) : key.rightChild.Tight := by
  intro i hi
  have hi : key.level + 1 ≤ i := hi
  rw [getMsb_rightChild hlevel, h i (by omega)]
  simp [show i ≠ key.level by omega]

/-- The two sides of a position do not meet. -/
theorem not_under_both (h : key.Tight) (hlevel : key.level < 256) (left : key.leftChild.Under k)
    (right : key.rightChild.Under k) : False := by
  have hl : k.path.getMsb key.level = false :=
    (left.2 key.level (Nat.lt_succ_self _)).trans (h key.level (Nat.le_refl _))
  have hr := right.2 key.level (Nat.lt_succ_self _)
  rw [hl, getMsb_rightChild hlevel] at hr
  simp at hr

end NodeKey

/-! ### Reading a batch -/

section Batch

variable {D : Type}

/-- The node a write puts at a position. -/
def SmtWrite.nodeAt (key : NodeKey) : SmtWrite D → Option (Node D)
  | .putNode k _ node => if k = key then some node else none
  | .putStaleNode _ => none

/-- A write of an update at `version`. -/
def SmtWrite.At (version : Nat) : SmtWrite D → Prop
  | .putNode key v _ => v = version ∧ key.level ≤ 256
  | .putStaleNode s => s.staleSinceVersion = version ∧ s.key.level ≤ 256

/-- The last node a batch puts at a position. -/
def nodeAt (wb : WriteBatch D) (key : NodeKey) : Option (Node D) :=
  wb.reverse.findSome? (SmtWrite.nodeAt key)

theorem nodeAt_append (ws ws' : WriteBatch D) (key : NodeKey) :
    nodeAt (ws ++ ws') key = (nodeAt ws' key).or (nodeAt ws key) := by
  rw [nodeAt, List.reverse_append, List.findSome?_append]
  rfl

theorem nodeAt_eq_none {ws : WriteBatch D} {key : NodeKey} :
    nodeAt ws key = none ↔ ∀ version node, .putNode key version node ∉ ws := by
  rw [nodeAt, List.findSome?_eq_none_iff]
  constructor
  · intro h version node hmem
    have := h _ (List.mem_reverse.mpr hmem)
    simp [SmtWrite.nodeAt] at this
  · intro h w hw
    match w, hw with
    | .putNode k version node, hw =>
      have hne : k ≠ key := fun heq => h version node (heq ▸ List.mem_reverse.mp hw)
      simp [SmtWrite.nodeAt, hne]
    | .putStaleNode _, _ => rfl

theorem nodeAt_eq_some {ws : WriteBatch D} {key : NodeKey} {n : Node D} (h : nodeAt ws key = some n) :
    ∃ version, .putNode key version n ∈ ws := by
  have ⟨w, hw, hn⟩ := List.exists_of_findSome?_eq_some h
  match w, hw, hn with
  | .putNode k version node, hw, hn =>
    simp only [SmtWrite.nodeAt, Option.ite_none_right_eq_some, Option.some.injEq] at hn
    exact ⟨version, hn.1 ▸ hn.2 ▸ List.mem_reverse.mp hw⟩

/-- A tombstone is no node. -/
def Node.alive : Node D → Option (Node D)
  | .empty => none
  | n => some n

namespace Updater

/-- The reads once the batch is written at the update's version. -/
def after (ctx : Updater D) (wb : WriteBatch D) : Reads D := fun key =>
  match nodeAt wb key with
  | some node => some (ctx.version, node)
  | none => ctx.node key

theorem live_after (ctx : Updater D) (wb : WriteBatch D) (key : NodeKey) :
    (ctx.after wb).live key = match nodeAt wb key with
      | some node => node.alive
      | none => ctx.node.live key := by
  unfold Reads.live after
  match nodeAt wb key with
  | none => rfl
  | some .empty | some (.internal _) | some (.leaf _ _ _) => rfl

theorem nodeAt_markStale (ctx : Updater D) (key k : NodeKey) : nodeAt (ctx.markStale key []) k = none := by
  unfold markStale
  cases ctx.node key <;> rfl

theorem nodeAt_childWrites (ctx : Updater D) (child : Option (Node D)) (key : NodeKey) :
    nodeAt (ctx.childWrites child key) key =
      if child.isSome || (ctx.node.live key).isSome then some (child.getD .empty) else none := by
  cases child with
  | none =>
    change nodeAt (if (ctx.node.live key).isSome then _ else []) key = _
    split
    · next h => simp [h, nodeAt, List.findSome?_cons, SmtWrite.nodeAt]
    · next h => simp [h, nodeAt]
  | some node => simp [childWrites, nodeAt, SmtWrite.nodeAt]

theorem nodeAt_childWrites_of_ne (ctx : Updater D) (child : Option (Node D)) {key k : NodeKey}
    (h : k ≠ key) : nodeAt (ctx.childWrites child key) k = none := by
  rw [nodeAt_eq_none]
  intro version node hmem
  unfold childWrites at hmem
  split at hmem
  · split at hmem <;> simp_all
  · simp_all

end Updater

end Batch

/-! ### The stored tree after a batch -/

section

variable {D : Type} [DecidableEq D] {H : Hasher D} {ctx : Updater D} {rem : Nat} {key : NodeKey}
  {es es' cs : List (Key × D)} {ws : WriteBatch D}

/-- What a position that stores `es` has below it. -/
def BelowStores (H : Hasher D) (node : Reads D) : Nat → NodeKey → List (Key × D) → Prop
  | 0, _, _ => True
  | rem + 1, key, es =>
    Stores H node rem key.leftChild (below rem false es) ∧
      Stores H node rem key.rightChild (below rem true es)

theorem stores_iff {node : Reads D} :
    Stores H node rem key es ↔ node.live key = nodeOf H rem es ∧ BelowStores H node rem key es := by
  cases rem with
  | zero => exact (and_true _).to_iff.symm
  | succ rem => exact Iff.rfl

/-- Only the nodes at and below a position matter. -/
theorem Stores.congr {node node' : Reads D} (h : Stores H node rem key es) (hlevel : key.level + rem = 256)
    (same : ∀ k, key.Under k → k.level ≤ 256 → node'.live k = node.live k) : Stores H node' rem key es := by
  induction rem generalizing key es with
  | zero => exact (same key (.refl key) (by omega)).trans h
  | succ rem ih =>
    have ⟨here, left, right⟩ := h
    refine ⟨(same key (.refl key) (by omega)).trans here,
      ih left (by simp only [NodeKey.leftChild]; omega) fun k hk => same k ?_,
      ih right (by simp only [NodeKey.rightChild]; omega) fun k hk => same k ?_⟩
    · exact NodeKey.under_leftChild.trans hk
    · exact (NodeKey.under_rightChild (by omega)).trans hk

theorem BelowStores.congr {node node' : Reads D} (h : BelowStores H node rem key es)
    (hlevel : key.level + rem = 256)
    (same : ∀ k, key.Under k → key.level < k.level → k.level ≤ 256 → node'.live k = node.live k) :
    BelowStores H node' rem key es := by
  cases rem with
  | zero => trivial
  | succ rem =>
    refine ⟨h.1.congr (by simp only [NodeKey.leftChild]; omega) fun k hk => same k ?_ hk.1,
      h.2.congr (by simp only [NodeKey.rightChild]; omega) fun k hk => same k ?_ hk.1⟩
    · exact NodeKey.under_leftChild.trans hk
    · exact (NodeKey.under_rightChild (by omega)).trans hk

omit [DecidableEq D] in
theorem below_perm {b : Bool} (h : es.Perm es') : (below rem b es).Perm (below rem b es') := by
  unfold below
  rw [h.length_eq]
  split
  · exact h.filter _
  · exact .refl _

theorem Stores.perm {node : Reads D} (h : Stores H node rem key es) (hperm : es.Perm es') :
    Stores H node rem key es' := by
  induction rem generalizing key es es' with
  | zero => exact h.trans (nodeOf_perm hperm)
  | succ rem ih =>
    exact ⟨h.1.trans (nodeOf_perm hperm), ih h.2.1 (below_perm hperm), ih h.2.2 (below_perm hperm)⟩

section Everywhere

omit [DecidableEq D]

/-- A relation between the entries before and after, at every position above the
last level. -/
def Everywhere (R : Nat → List (Key × D) → List (Key × D) → Prop) :
    Nat → List (Key × D) → List (Key × D) → Prop
  | 0, _, _ => True
  | rem + 1, es, es' => R rem es es' ∧ ∀ b, Everywhere R rem (side rem b es) (side rem b es')

variable {R : Nat → List (Key × D) → List (Key × D) → Prop}

theorem everywhere_nil (hnil : ∀ rem es', R rem [] es') : Everywhere R rem [] es := by
  induction rem generalizing es with
  | zero => trivial
  | succ rem ih => exact ⟨hnil rem es, fun b => ih⟩

theorem Everywhere.perm {es'' : List (Key × D)} (h : Everywhere R rem es es')
    (hR : ∀ {rem es es' es''}, R rem es es' → es'.Perm es'' → R rem es es'')
    (hperm : es'.Perm es'') : Everywhere R rem es es'' := by
  induction rem generalizing es es' es'' with
  | zero => trivial
  | succ rem ih => exact ⟨hR h.1 hperm, fun b => ih (h.2 b) (hperm.filter _)⟩

/-- No position with two entries is left with fewer. -/
abbrev Keeps : Nat → List (Key × D) → List (Key × D) → Prop :=
  Everywhere fun _ es es' => 2 ≤ es.length → 2 ≤ es'.length

theorem keeps_nil : Keeps rem [] es := everywhere_nil fun _ _ h => absurd h (by simp)

theorem Keeps.perm {es'' : List (Key × D)} (h : Keeps rem es es') (hperm : es'.Perm es'') :
    Keeps rem es es'' :=
  Everywhere.perm h (fun hR hperm two => hperm.length_eq ▸ hR two) hperm

end Everywhere

theorem alive_nodeOf (H : Hasher D) (rem : Nat) (es : List (Key × D)) : (nodeOf H rem es).bind Node.alive = nodeOf H rem es := by
  match es with
  | [] | [_] | _ :: _ :: _ => rfl

/-- With two entries below it, a position places both children. -/
theorem joinWrites_two (two : 2 ≤ es.length) :
    ctx.joinWrites key (nodeOf H rem (side rem false es)) (nodeOf H rem (side rem true es)) =
      ctx.childWrites (nodeOf H rem (side rem false es)) key.leftChild ++
        ctx.childWrites (nodeOf H rem (side rem true es)) key.rightChild := by
  have total := length_side_add rem es
  generalize side rem false es = left at total ⊢
  generalize side rem true es = right at total ⊢
  match left, right with
  | [], [] | [], [_] | [_], [] => simp at total; omega
  | [], _ :: _ :: _ | [_], [_] | [_], _ :: _ :: _ | _ :: _ :: _, [] | _ :: _ :: _, [_]
  | _ :: _ :: _, _ :: _ :: _ => rfl

namespace Updater

/-- A write for a position puts a node strictly below it or marks one at or below it
as stale, at the update's version. -/
def Inside (ctx : Updater D) (key : NodeKey) : SmtWrite D → Prop
  | .putNode k version _ => version = ctx.version ∧ key.Under k ∧ key.level < k.level ∧ k.level ≤ 256
  | .putStaleNode s => s.staleSinceVersion = ctx.version ∧ key.Under s.key ∧ s.key.level ≤ 256

omit [DecidableEq D] in
theorem Inside.mono {child : NodeKey} {w : SmtWrite D} (h : ctx.Inside child w)
    (hchild : key.Under child) : ctx.Inside key w := by
  match w, h with
  | .putNode _ _ _, ⟨hv, hk, hlt, hle⟩ =>
    exact ⟨hv, hchild.trans hk, Nat.lt_of_le_of_lt hchild.1 hlt, hle⟩
  | .putStaleNode _, ⟨hv, hk, hle⟩ => exact ⟨hv, hchild.trans hk, hle⟩

omit [DecidableEq D] in
theorem Inside.at {w : SmtWrite D} (h : ctx.Inside key w) : w.At ctx.version := by
  match w, h with
  | .putNode _ _ _, ⟨hv, _, _, hle⟩ => exact ⟨hv, hle⟩
  | .putStaleNode _, ⟨hv, _, hle⟩ => exact ⟨hv, hle⟩

omit [DecidableEq D] in
theorem inside_markStale (hlevel : key.level ≤ 256) : ∀ w ∈ ctx.markStale key [], ctx.Inside key w := by
  intro w hw
  unfold markStale at hw
  split at hw
  · rw [List.nil_append, List.mem_singleton] at hw
    subst hw
    exact ⟨rfl, .refl key, hlevel⟩
  · cases hw

omit [DecidableEq D] in
theorem inside_childWrites {child : Option (Node D)} {k : NodeKey} (hk : key.Under k)
    (hlt : key.level < k.level) (hle : k.level ≤ 256) :
    ∀ w ∈ ctx.childWrites child k, ctx.Inside key w := by
  intro w hw
  unfold childWrites at hw
  split at hw
  · split at hw
    · simp only [List.mem_cons, List.not_mem_nil, or_false] at hw
      match hw with
      | .inl h => exact h ▸ ⟨rfl, hk, hlt, hle⟩
      | .inr h => exact h ▸ ⟨rfl, hk, hle⟩
    · cases hw
  · rw [List.mem_singleton] at hw
    exact hw ▸ ⟨rfl, hk, hlt, hle⟩

theorem Writes.inside (h : Writes H ctx rem key es cs ws) (hlevel : key.level + rem = 256) :
    ∀ w ∈ ws, ctx.Inside key w := by
  induction h with
  | untouched => simp
  | stop _ _ => exact inside_markStale (by omega)
  | @split rem key es cs es₀ cs₀ left right _ _ _ _ _ ihl ihr =>
    have underRight := NodeKey.under_rightChild (show key.level < 256 by omega)
    intro w hw
    simp only [List.mem_append] at hw
    rcases hw with h | h | h | h
    · exact inside_markStale (by omega) w h
    · exact (ihl (by simp only [NodeKey.leftChild]; omega) w h).mono NodeKey.under_leftChild
    · exact (ihr (by simp only [NodeKey.rightChild]; omega) w h).mono underRight
    · unfold joinWrites at h
      split at h
      iterate 3 cases h
      have hle : key.level + 1 ≤ 256 := by omega
      rcases List.mem_append.mp h with h | h
      · exact inside_childWrites NodeKey.under_leftChild (Nat.lt_succ_self _) hle w h
      · exact inside_childWrites underRight (Nat.lt_succ_self _) hle w h

/-- Elsewhere a batch puts nothing. -/
theorem Writes.nodeAt_none (h : Writes H ctx rem key es cs ws) (hlevel : key.level + rem = 256)
    {k : NodeKey} (hk : key.Under k → k.level ≤ key.level) : nodeAt ws k = none := by
  rw [nodeAt_eq_none]
  intro version node hmem
  have ⟨_, under, below, _⟩ := h.inside hlevel _ hmem
  exact absurd (hk under) (by omega)

/-- A placed child stores its entries, whatever else the batch writes beside it. -/
theorem Writes.stores_child {es₁ cs₁ : List (Key × D)} {whole : WriteBatch D}
    (h : Writes H ctx rem key es₁ cs₁ ws) (hlevel : key.level + rem = 256)
    (below : BelowStores H (ctx.after ws) rem key es)
    (hat : ∀ k, key.Under k →
      nodeAt whole k = (nodeAt (ctx.childWrites (nodeOf H rem es) key) k).or (nodeAt ws k)) :
    Stores H (ctx.after whole) rem key es := by
  refine stores_iff.mpr ⟨?_, below.congr hlevel fun k hk hlt _ => ?_⟩
  · rw [live_after, hat key (.refl key), nodeAt_childWrites, h.nodeAt_none hlevel fun _ => Nat.le_refl _]
    match hn : nodeOf H rem es with
    | none =>
      match hold : ctx.node.live key with
      | none => rfl
      | some _ => rfl
    | some n =>
      have alive := alive_nodeOf H rem es
      rw [hn] at alive
      exact alive
  · have hne : k ≠ key := fun heq => by rw [heq] at hlt; omega
    rw [live_after, live_after, hat k hk, nodeAt_childWrites_of_ne ctx _ hne, Option.none_or]

/-- Reading the writes on top of the old nodes, the new entries are stored below
the position. -/
theorem Writes.stores (h : Writes H ctx rem key es cs ws) (hlevel : key.level + rem = 256)
    (tight : key.Tight) (stored : Stores H ctx.node rem key es)
    (keeps : Keeps rem es (applyUpdates H cs es)) :
    BelowStores H (ctx.after ws) rem key (applyUpdates H cs es) := by
  induction h with
  | untouched =>
    rw [applyUpdates_nil]
    exact (stores_iff.mp stored).2
  | @stop rem key es cs before after =>
    have same : ∀ k, (ctx.after (ctx.markStale key [])).live k = ctx.node.live k := fun k => by
      rw [live_after, nodeAt_markStale]
    -- at most one entry before and after: nothing is stored below
    have none : ∀ n b, Smt.below n b (applyUpdates H cs es) = Smt.below n b es := fun n b => by
      rw [Smt.below, Smt.below, if_neg (by omega), if_neg (by omega)]
    cases rem with
    | zero => trivial
    | succ rem =>
      have ⟨_, left, right⟩ := stored
      refine ⟨?_, ?_⟩
      · rw [none]
        exact left.congr (by simp only [NodeKey.leftChild]; omega) fun k _ _ => same k
      · rw [none]
        exact right.congr (by simp only [NodeKey.rightChild]; omega) fun k _ _ => same k
  | @split rem key es cs es₀ cs₀ left right entries perm two hleft hright ihl ihr =>
    -- the position holds two entries afterwards, so both children are placed
    have two' : 2 ≤ (applyUpdates H cs₀ es₀).length := by
      rw [perm.length_eq]
      exact two.elim keeps.1 id
    have hlt : key.level < 256 := by omega
    have hl : key.leftChild.level + rem = 256 := by simp only [NodeKey.leftChild]; omega
    have hr : key.rightChild.level + rem = 256 := by simp only [NodeKey.rightChild]; omega
    have underRight := NodeKey.under_rightChild hlt
    have apart := fun k => NodeKey.not_under_both (k := k) tight hlt
    -- a leaf that was split had nothing stored below it
    have children : ChildrenStore H ctx.node (rem + 1) key es₀ := by
      rw [entries]
      exact childrenStore_of_stores stored
    have keeps : ∀ b, Keeps rem (side rem b es₀) (side rem b (applyUpdates H cs₀ es₀)) := by
      intro b
      by_cases hes : 2 ≤ es.length
      · rw [if_pos hes] at entries
        subst entries
        exact Keeps.perm (keeps.2 b) (perm.symm.filter _)
      · rw [if_neg hes] at entries
        subst entries
        exact keeps_nil
    have left := ihl hl tight.leftChild children.1 (by rw [← side_applyUpdates]; exact keeps false)
    have right := ihr hr (tight.rightChild hlt) children.2
      (by rw [← side_applyUpdates]; exact keeps true)
    rw [← side_applyUpdates] at left right
    rw [joinWrites_two two']
    have same : ∀ b, (side rem b (applyUpdates H cs₀ es₀)).Perm
        (Smt.below rem b (applyUpdates H cs es)) := by
      intro b
      rw [Smt.below, if_pos (perm.length_eq ▸ two')]
      exact perm.filter _
    refine ⟨(hleft.stores_child hl left fun k hk => ?_).perm (same false),
      (hright.stores_child hr right fun k hk => ?_).perm (same true)⟩
    · have outside := hright.nodeAt_none hr fun h => (apart k hk h).elim
      have hne : k ≠ key.rightChild := fun h => apart k hk (h ▸ .refl _)
      simp only [nodeAt_append, nodeAt_markStale, outside, nodeAt_childWrites_of_ne ctx _ hne,
        Option.none_or, Option.or_none]
    · have outside := hleft.nodeAt_none hl fun h => (apart k h hk).elim
      have hne : k ≠ key.leftChild := fun h => apart k (h ▸ .refl _) hk
      simp only [nodeAt_append, nodeAt_markStale, outside, nodeAt_childWrites_of_ne ctx _ hne,
        Option.or_none]

end Updater

/-- A batch that keeps every position with two entries leaves the canonical tree
of the new map readable. -/
theorem Tree.apply_stores {node : Reads D} {S : StateMap H}
    (stored : Stores H node DEPTH NodeKey.ROOT S.entries) (cs : List (Commitment D)) (version : Nat)
    (keeps : Keeps DEPTH S.entries (S.setAll cs).entries) :
    ∃ wb, Updater.apply H ⟨node, version⟩ cs = .ok ((S.setAll cs).root, wb) ∧
      Stores H (Updater.after ⟨node, version⟩ wb) DEPTH NodeKey.ROOT (S.setAll cs).entries ∧
      ∀ w ∈ wb, w.At version := by
  have ⟨ws, happly, hwrites⟩ := Tree.apply_eq stored cs version
  have perm := Updater.applyUpdates_dedupLast_perm S cs
  have below := hwrites.stores rfl NodeKey.tight_root stored (keeps.perm perm.symm)
  have node_perm : nodeOf H DEPTH _ = nodeOf H DEPTH _ := nodeOf_perm perm
  have alive := alive_nodeOf H DEPTH (S.setAll cs).entries
  have top : ∀ k n, nodeAt [.putNode NodeKey.ROOT version n] k =
      if k = NodeKey.ROOT then some (n : Node D) else none := fun k n => by
    by_cases hk : k = NodeKey.ROOT <;> simp [nodeAt, SmtWrite.nodeAt, hk, eq_comm]
  refine ⟨_, happly, Stores.perm (stores_iff.mpr ⟨?_, below.congr rfl fun k _ hlt _ => ?_⟩) perm, ?_⟩
  · rw [Updater.live_after, nodeAt_append, top, if_pos rfl, Option.some_or, node_perm]
    match hn : nodeOf H DEPTH (S.setAll cs).entries with
    | none => rfl
    | some n =>
      rw [hn] at alive
      exact alive
  · have hne : k ≠ NodeKey.ROOT := fun h => by rw [h] at hlt; exact absurd hlt (Nat.lt_irrefl _)
    rw [Updater.live_after, Updater.live_after, nodeAt_append, top, if_neg hne, Option.none_or]
  · intro w hw
    match List.mem_append.mp hw with
    | .inl h => exact (hwrites.inside rfl w h).at
    | .inr h => exact (List.mem_singleton.mp h) ▸ ⟨rfl, Nat.zero_le _⟩

/-- The same for an update, which writes nothing for no commitments. -/
theorem Tree.update_stores {node : Reads D} {S : StateMap H}
    (stored : Stores H node DEPTH NodeKey.ROOT S.entries) (cs : List (Commitment D)) {version : Nat}
    (hversion : 0 < version) (genesis : version = 1 → S.entries = [])
    (keeps : Keeps DEPTH S.entries (S.setAll cs).entries) :
    ∃ wb, Tree.update H node cs version = .ok ((S.setAll cs).root, wb) ∧
      Stores H (Updater.after ⟨node, version⟩ wb) DEPTH NodeKey.ROOT (S.setAll cs).entries ∧
      ∀ w ∈ wb, w.At version := by
  match cs, keeps with
  | [], _ =>
    have ⟨wb, hupdate⟩ := Tree.update_root stored [] hversion genesis
    have hwb : wb = [] := by
      unfold Tree.update at hupdate
      rw [decide_eq_true hversion] at hupdate
      exact (Prod.mk.inj (Except.ok.inj hupdate)).2.symm
    subst hwb
    exact ⟨[], hupdate, stored.congr rfl fun _ _ _ => rfl, fun _ hw => absurd hw List.not_mem_nil⟩
  | c :: cs, keeps =>
    have ⟨wb, happly, hstores, hat⟩ := Tree.apply_stores stored (c :: cs) version keeps
    refine ⟨wb, ?_, hstores, hat⟩
    unfold Tree.update
    rw [decide_eq_true hversion]
    exact happly

end

end Vprogs.Smt
