import Vprogs.Smt.VersionedTree
import Vprogs.Smt.Wire

/-!
Pruning a linear history. A stale marker names a node that a later version of the
same position superseded; pruning a version deletes the nodes its markers name.
As long as every node position keeps a key, a marked node has its successor in
the store and no read at a surviving version misses it.
-/
namespace Vprogs.Smt

/-! ### The condition -/

section

variable {D : Type} {H : Hasher D} {rem : Nat} {es es' : List (Key × D)}

/-- No nonempty half of a position with two entries is emptied. -/
abbrev Fills : Nat → List (Key × D) → List (Key × D) → Prop :=
  Everywhere fun rem es es' => 2 ≤ es.length → ∀ b, side rem b es ≠ [] → side rem b es' ≠ []

theorem fills_nil : Fills rem [] es := everywhere_nil fun _ _ h => absurd h (by simp)

theorem Fills.perm {es'' : List (Key × D)} (h : Fills rem es es') (hperm : es'.Perm es'') :
    Fills rem es es'' := by
  refine Everywhere.perm h (fun {rem _ es' es''} hR hperm two b hb hnil => hR two b hb ?_) hperm
  have sides : (side rem b es').Perm (side rem b es'') := hperm.filter _
  rw [hnil] at sides
  exact sides.eq_nil

/-- Two keys part at some position, and neither half there is emptied. -/
theorem Fills.keeps (h : Fills rem es es') (seg : Segment H rem es) : Keeps rem es es' := by
  induction rem generalizing es es' with
  | zero => trivial
  | succ rem ih =>
    refine ⟨fun two => ?_, fun b => ih (h.2 b) (seg.side b)⟩
    have before := length_side_add rem es
    have after := length_side_add rem es'
    -- a half that holds both entries keeps two of its own
    have half : ∀ b, 2 ≤ (side rem b es).length → 2 ≤ (side rem b es').length := by
      intro b two
      match rem, h, seg with
      | 0, _, seg => exact absurd (seg.side b).length_le_one (by omega)
      | rem + 1, h, seg => exact (ih (h.2 b) (seg.side b)).1 two
    have one : ∀ b, 1 ≤ (side rem b es).length → 1 ≤ (side rem b es').length := fun b hb =>
      List.length_pos_iff.mpr (h.1 two b (List.length_pos_iff.mp hb))
    have left := half false
    have right := half true
    have left' := one false
    have right' := one true
    omega

namespace StateMap

/-- Every node position other than the root still holds a key afterwards. A node is
stored at a bit prefix when the prefix one bit shorter is shared by two keys. -/
def KeepsNodes (S S' : StateMap H) : Prop :=
  ∀ k bits, 2 ≤ (S.sharing k bits).length → S.sharing k (bits + 1) ≠ [] →
    S'.sharing k (bits + 1) ≠ []

/-- Inserting and overwriting empties no position. -/
theorem KeepsNodes.of_keys {S S' : StateMap H}
    (h : ∀ e ∈ S.entries, e.1 ∈ S'.entries.map Prod.fst) : S.KeepsNodes S' := by
  intro k bits _ hne hnil
  have ⟨e, he⟩ := List.exists_mem_of_ne_nil _ hne
  have ⟨hmem, hshare⟩ := List.mem_filter.mp he
  have ⟨e', he', hkey⟩ := List.mem_map.mp (h e hmem)
  have : e' ∈ S'.sharing k (bits + 1) := List.mem_filter.mpr ⟨he', by rw [hkey]; exact hshare⟩
  rw [hnil] at this
  cases this

theorem KeepsNodes.fills {S S' : StateMap H} (h : S.KeepsNodes S') : Fills DEPTH S.entries S'.entries := by
  refine everywhere_of_sharing (fun _ _ two => absurd two (by simp)) ?_
  intro rem bits k hbits two b hb
  have ⟨e, he⟩ := List.exists_mem_of_ne_nil _ hb
  have ⟨hmem, hbit⟩ := mem_side.mp he
  have shared : k.sharesPrefix e.1 bits = true := (List.mem_filter.mp hmem).2
  rw [← hbit, side_sharing S hbits shared] at hb
  rw [← hbit, side_sharing S' hbits shared]
  rw [sharing_congr S shared] at two
  exact h e.1 bits two hb

end StateMap

end

/-! ### Markers of one update -/

section

variable {D : Type} [DecidableEq D] {H : Hasher D} {ctx : Updater D} {rem : Nat} {key : NodeKey}
  {es cs : List (Key × D)} {ws : WriteBatch D}

namespace Updater

omit [DecidableEq D] in
/-- A child that holds no key and held none is not written. -/
theorem childWrites_eq {child : Option (Node D)} {k : NodeKey}
    (h : child = none → ctx.node.live k = none) :
    ctx.childWrites child k = match child with
      | none => []
      | some node => [.putNode k ctx.version node] := by
  match child, h with
  | none, h => simp [childWrites, h rfl]
  | some node, _ => rfl

/-- Every marker names the node read at its position, and the position is `key` or
gets a new node; no tombstone is written. -/
structure Marked (ctx : Updater D) (key : NodeKey) (ws : WriteBatch D) : Prop where
  read : ∀ s, .putStaleNode s ∈ ws → ∃ n, ctx.node s.key = some (s.version, n)
  placed : ∀ s, .putStaleNode s ∈ ws → s.key = key ∨ ∃ v n, .putNode s.key v n ∈ ws
  alive : ∀ k v n, .putNode k v n ∈ ws → n ≠ .empty

namespace Marked

omit [DecidableEq D]

theorem nil : Marked ctx key [] := ⟨by simp, by simp, by simp⟩

theorem append {ws' : WriteBatch D} (h : Marked ctx key ws) (h' : Marked ctx key ws') :
    Marked ctx key (ws ++ ws') := by
  refine ⟨fun s hs => (List.mem_append.mp hs).elim (h.read s) (h'.read s), fun s hs => ?_,
    fun k v n hn => (List.mem_append.mp hn).elim (h.alive k v n) (h'.alive k v n)⟩
  match List.mem_append.mp hs with
  | .inl hs => exact (h.placed s hs).imp_right fun ⟨v, n, hput⟩ => ⟨v, n, List.mem_append_left _ hput⟩
  | .inr hs => exact (h'.placed s hs).imp_right fun ⟨v, n, hput⟩ => ⟨v, n, List.mem_append_right _ hput⟩

theorem perm {ws' : WriteBatch D} (h : Marked ctx key ws) (hperm : ws.Perm ws') : Marked ctx key ws' :=
  ⟨fun s hs => h.read s (hperm.mem_iff.mpr hs),
    fun s hs => (h.placed s (hperm.mem_iff.mpr hs)).imp_right fun ⟨v, n, hput⟩ =>
      ⟨v, n, hperm.mem_iff.mp hput⟩,
    fun k v n hn => h.alive k v n (hperm.mem_iff.mpr hn)⟩

theorem markStale : Marked ctx key (ctx.markStale key []) := by
  match h : ctx.node key with
  | none =>
    have : ctx.markStale key [] = [] := by simp [Updater.markStale, h]
    rw [this]
    exact nil
  | some (v, n) =>
    have : ctx.markStale key [] = [.putStaleNode ⟨ctx.version, key, v⟩] := by
      simp [Updater.markStale, h]
    rw [this]
    refine ⟨fun s hs => ?_, fun s hs => ?_, by simp⟩
    · cases List.mem_singleton.mp hs
      exact ⟨n, h⟩
    · cases List.mem_singleton.mp hs
      exact .inl rfl

/-- Placing the child backs the marker of its own position. -/
theorem place {child : Option (Node D)} (h : Marked ctx key ws) (hchild : child ≠ some .empty)
    (hlive : child = none → ctx.node.live key = none) (clean : ∀ v, ctx.node key ≠ some (v, .empty))
    (parent : NodeKey) : Marked ctx parent (ws ++ ctx.childWrites child key) := by
  rw [childWrites_eq hlive]
  match child, hchild, hlive with
  | some m, hchild, _ =>
    refine ⟨fun s hs => h.read s (by simpa using hs), fun s hs => ?_, fun k v n hn heq => ?_⟩
    · match h.placed s (by simpa using hs) with
      | .inl heq => exact .inr ⟨ctx.version, m, by simp [heq]⟩
      | .inr ⟨v, n, hput⟩ => exact .inr ⟨v, n, List.mem_append_left _ hput⟩
    · match List.mem_append.mp hn with
      | .inl hn => exact h.alive k v n hn heq
      | .inr hn =>
        cases List.mem_singleton.mp hn
        exact hchild (congrArg some heq)
  | none, _, hlive =>
    have unread : ∀ v n, ctx.node key ≠ some (v, n) := by
      intro v n hread
      have dead := hlive rfl
      unfold Reads.live at dead
      match n, hread with
      | .empty, hread => exact clean v hread
      | .internal _, hread | .leaf _ _ _, hread => simp [hread] at dead
    rw [List.append_nil]
    refine ⟨h.read, fun s hs => ?_, h.alive⟩
    match h.placed s hs with
    | .inr hput => exact .inr hput
    | .inl heq =>
      have ⟨n, hread⟩ := h.read s hs
      exact absurd hread (heq ▸ unread s.version n)

end Marked

theorem nodeOf_ne_empty (H : Hasher D) (rem : Nat) (es : List (Key × D)) :
    nodeOf H rem es ≠ some .empty := by
  match es with
  | [] | [_] | _ :: _ :: _ => simp [nodeOf, Node.mkLeaf]

theorem nodeOf_eq_none : nodeOf H rem es = none ↔ es = [] := by
  match es with
  | [] | [_] | _ :: _ :: _ => simp [nodeOf]

/-- A half without a key now had none before. -/
theorem empty_half {es₀ cs₀ : List (Key × D)}
    (fills : Fills (rem + 1) es₀ (applyUpdates H cs₀ es₀)) (short : es₀ = [] ∨ 2 ≤ es₀.length) (b : Bool)
    (h : nodeOf H rem (side rem b (applyUpdates H cs₀ es₀)) = none) :
    nodeOf H rem (side rem b es₀) = none := by
  rw [nodeOf_eq_none] at h ⊢
  by_contra hne
  match short with
  | .inl hnil => exact hne (by rw [hnil]; rfl)
  | .inr two => exact fills.1 two b hne h

/-- As long as no half is emptied, markers are backed by new nodes. -/
theorem Writes.marked (h : Writes H ctx rem key es cs ws) (hlevel : key.level + rem = 256)
    (clean : ∀ k v, 0 < k.level → k.level ≤ 256 → ctx.node k ≠ some (v, .empty))
    (stored : Stores H ctx.node rem key es) (seg : Segment H rem es)
    (fills : Fills rem es (applyUpdates H cs es)) : Marked ctx key ws := by
  induction h with
  | untouched => exact .nil
  | stop _ _ => exact .markStale
  | @split rem key es cs es₀ cs₀ left right entries perm two _ _ ihl ihr =>
    have two' : 2 ≤ (applyUpdates H cs₀ es₀).length := by
      rw [perm.length_eq]
      exact two.elim (fills.keeps seg).1 id
    have children : ChildrenStore H ctx.node (rem + 1) key es₀ := by
      rw [entries]
      exact childrenStore_of_stores stored
    have ⟨fills₀, seg₀, short⟩ : Fills (rem + 1) es₀ (applyUpdates H cs₀ es₀) ∧
        Segment H (rem + 1) es₀ ∧ (es₀ = [] ∨ 2 ≤ es₀.length) := by
      by_cases hes : 2 ≤ es.length
      · rw [if_pos hes] at entries
        subst entries
        exact ⟨Fills.perm fills perm.symm, seg, .inr hes⟩
      · rw [if_neg hes] at entries
        subst entries
        exact ⟨fills_nil, Segment.nil seg.bound, .inl rfl⟩
    have sides : ∀ b, side rem b (applyUpdates H cs₀ es₀) =
        applyUpdates H (side rem b cs₀) (side rem b es₀) := fun b => side_applyUpdates b
    have left := ihl (by simp only [NodeKey.leftChild]; omega) children.1 (seg₀.side false)
      (sides false ▸ fills₀.2 false)
    have right := ihr (by simp only [NodeKey.rightChild]; omega) children.2 (seg₀.side true)
      (sides true ▸ fills₀.2 true)
    have placedLeft := left.place (nodeOf_ne_empty H rem _)
      (fun h => children.1.node.trans (empty_half fills₀ short false h))
      (fun v => clean _ v (Nat.succ_pos _) (by simp only [NodeKey.leftChild]; omega)) key
    have placedRight := right.place (nodeOf_ne_empty H rem _)
      (fun h => children.2.node.trans (empty_half fills₀ short true h))
      (fun v => clean _ v (Nat.succ_pos _) (by simp only [NodeKey.rightChild]; omega)) key
    rw [joinWrites_two two']
    refine (Marked.markStale.append (placedLeft.append placedRight)).perm (.append_left _ ?_)
    rw [List.append_assoc]
    refine .append_left _ ?_
    rw [← List.append_assoc, ← List.append_assoc]
    exact List.perm_append_comm.append_right _

end Updater

end

end Vprogs.Smt
