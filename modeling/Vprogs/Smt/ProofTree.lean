import Vprogs.Smt.Canonical
import Vprogs.Smt.Traversal

/-!
The tree a multi-proof describes, with its summaries left symbolic, and what it has in
common with a canonical tree of the same hash. Positions stand for rows of the leaf
table. Nothing here assumes that the prover was honest: an empty row commits nothing,
and a sibling's kind and hash are the prover's word until a node above hashes them.
-/
namespace Vprogs.Smt

inductive ProofTree (D : Type) where
  | empty
  | leaf (pos : Nat)
  | sibling (node : HashedNode D)
  | both (left right : ProofTree D)
  deriving DecidableEq

namespace ProofTree

variable {D T : Type}

def positions : ProofTree D → List Nat
  | .leaf pos => [pos]
  | .both l r => positions l ++ positions r
  | .empty | .sibling _ => []

/-- The siblings that the walk takes from the table. -/
def siblings : ProofTree D → List (HashedNode D)
  | .sibling n => [n]
  | .both l r => siblings l ++ siblings r
  | .empty | .leaf _ => []

/-- The shape of a walk, computed by the walk itself. -/
def summarizer : Summarizer D (ProofTree D) where
  empty := .empty
  leafHashFn pos := pure (.leaf pos)
  both := .both
  besideSibling child sibling goesLeft :=
    if goesLeft then .both child (.sibling sibling) else .both (.sibling sibling) child

def eval (H : Hasher D) (node : Nat → HashedNode D) : ProofTree D → HashedNode D
  | .empty => HashedNode.empty H
  | .leaf pos => node pos
  | .sibling n => n
  | .both l r => HashedNode.combine H (eval H node l) (eval H node r)

theorem eval_besideSibling (H : Hasher D) (node : Nat → HashedNode D) (t : ProofTree D)
    (n : HashedNode D) (g : Bool) :
    (summarizer.besideSibling t n g).eval H node = combineWithSibling H (t.eval H node) n g := by
  cases g <;> rfl

theorem mem_positions_besideSibling {t : ProofTree D} {n : HashedNode D} {g : Bool} {pos : Nat} :
    pos ∈ (summarizer.besideSibling t n g).positions ↔ pos ∈ t.positions := by
  cases g <;> simp [summarizer, positions]

/-- Every leaf sits `256 - rem` levels down, where `rem` is counted from the top. -/
def Leveled (depth : Nat → Nat) : Nat → ProofTree D → Prop
  | rem, .leaf pos => depth pos + rem = 256
  | rem + 1, .both l r => Leveled depth rem l ∧ Leveled depth rem r
  | 0, .both _ _ => False
  | _, .empty | _, .sibling _ => True

/-- Subtrees that are not a bare sibling. -/
def Walked : ProofTree D → Prop
  | .sibling _ => False
  | .empty | .leaf _ | .both _ _ => True

@[simp] theorem leveled_empty (depth : Nat → Nat) (rem : Nat) :
    (empty : ProofTree D).Leveled depth rem := by
  cases rem <;> trivial

@[simp] theorem leveled_sibling (depth : Nat → Nat) (rem : Nat) (n : HashedNode D) :
    (sibling n).Leveled depth rem := by
  cases rem <;> trivial

theorem Leveled.depth_le {depth : Nat → Nat} {rem : Nat} {t : ProofTree D}
    (h : t.Leveled depth rem) {pos : Nat} (hp : pos ∈ t.positions) :
    256 - rem ≤ depth pos ∧ depth pos ≤ 256 := by
  induction t generalizing rem with
  | empty | sibling _ => cases hp
  | leaf q =>
    obtain rfl := List.mem_singleton.mp hp
    rw [Leveled] at h
    omega
  | both l r ihl ihr =>
    cases rem with
    | zero => exact h.elim
    | succ n =>
      rcases List.mem_append.mp hp with hp | hp
      · have := ihl h.1 hp
        omega
      · have := ihr h.2 hp
        omega

section Kinds

variable {H : Hasher D} {node : Nat → HashedNode D} {t : ProofTree D}

theorem eval_congr {f g : Nat → HashedNode D} (h : ∀ pos ∈ t.positions, f pos = g pos) :
    t.eval H f = t.eval H g := by
  induction t with
  | empty | sibling _ => rfl
  | leaf pos => exact h pos (by simp [positions])
  | both l r ihl ihr =>
    rw [eval, eval, ihl fun pos hp => h pos (List.mem_append_left _ hp),
      ihr fun pos hp => h pos (List.mem_append_right _ hp)]

/-- An empty summary hides neither a row nor a sibling. -/
theorem of_kind_empty (hk : (t.eval H node).kind = HashedNode.EMPTY) :
    (∀ pos ∈ t.positions, (node pos).kind = HashedNode.EMPTY) ∧
      ∀ n ∈ t.siblings, n.kind = HashedNode.EMPTY := by
  induction t with
  | empty => exact ⟨by simp [positions], by simp [siblings]⟩
  | leaf pos => exact ⟨by simpa [positions, eval] using hk, by simp [siblings]⟩
  | sibling n => exact ⟨by simp [positions], by simpa [siblings, eval] using hk⟩
  | both l r ihl ihr =>
    obtain ⟨hl, hr, _⟩ := HashedNode.combine_kind_empty hk
    exact ⟨fun pos hp => (List.mem_append.mp hp).elim ((ihl hl).1 pos) ((ihr hr).1 pos),
      fun n hn => (List.mem_append.mp hn).elim ((ihl hl).2 n) ((ihr hr).2 n)⟩

/-- A leaf summary is the one row or sibling below that is not empty. -/
theorem of_kind_leaf (hk : (t.eval H node).kind = HashedNode.LEAF) :
    (∀ pos ∈ t.positions, (node pos).kind ≠ HashedNode.EMPTY → node pos = t.eval H node) ∧
      (∀ n ∈ t.siblings, n.kind ≠ HashedNode.EMPTY → n = t.eval H node) ∧
      ((∃ pos ∈ t.positions, node pos = t.eval H node) ∨ ∃ n ∈ t.siblings, n = t.eval H node) := by
  induction t with
  | empty => cases hk
  | leaf pos =>
    refine ⟨?_, by simp [siblings], .inl ⟨pos, by simp [positions], rfl⟩⟩
    intro q hq _
    rw [List.mem_singleton.mp hq, eval]
  | sibling n =>
    refine ⟨by simp [positions], ?_, .inr ⟨n, by simp [siblings], rfl⟩⟩
    intro m hm _
    rw [List.mem_singleton.mp hm, eval]
  | both l r ihl ihr =>
    rw [eval] at hk ⊢
    obtain ⟨hl, hr, hc⟩ | ⟨hl, hr, hc⟩ | ⟨_, _, hc⟩ | ⟨hk', _⟩ :=
      HashedNode.combine_cases (H := H) (l.eval H node) (r.eval H node)
    · obtain ⟨hpos, hsib, hsome⟩ := ihl hl
      obtain ⟨noPos, noSib⟩ := of_kind_empty hr
      rw [hc]
      refine ⟨fun pos hp ne => ?_, fun n hn ne => ?_, ?_⟩
      · exact (List.mem_append.mp hp).elim (fun hp => hpos pos hp ne) fun hp => absurd (noPos pos hp) ne
      · exact (List.mem_append.mp hn).elim (fun hn => hsib n hn ne) fun hn => absurd (noSib n hn) ne
      · exact hsome.imp (Exists.imp fun _ h => ⟨List.mem_append_left _ h.1, h.2⟩)
          (Exists.imp fun _ h => ⟨List.mem_append_left _ h.1, h.2⟩)
    · obtain ⟨hpos, hsib, hsome⟩ := ihr hr
      obtain ⟨noPos, noSib⟩ := of_kind_empty hl
      rw [hc]
      refine ⟨fun pos hp ne => ?_, fun n hn ne => ?_, ?_⟩
      · exact (List.mem_append.mp hp).elim (fun hp => absurd (noPos pos hp) ne) fun hp => hpos pos hp ne
      · exact (List.mem_append.mp hn).elim (fun hn => absurd (noSib n hn) ne) fun hn => hsib n hn ne
      · exact hsome.imp (Exists.imp fun _ h => ⟨List.mem_append_right _ h.1, h.2⟩)
          (Exists.imp fun _ h => ⟨List.mem_append_right _ h.1, h.2⟩)
    · rw [hc] at hk; cases hk
    · rw [hk'] at hk; cases hk

end Kinds

section Genuine

variable [DecidableEq D] {H : Hasher D} {node : Nat → HashedNode D} {t : ProofTree D}

/-- A summary whose hash was computed rather than supplied by the prover. -/
def Genuine (H : Hasher D) (n : HashedNode D) : Prop :=
  n = HashedNode.empty H ∨
  (∃ k v, v ≠ H.emptyHash ∧ n = HashedNode.leaf H k v) ∨
  ∃ l r : HashedNode D, n = ⟨HashedNode.INTERNAL,
    H.hashPartsWithDomain [HashedNode.INTERNAL, l.kind, r.kind] [.digest l.hash, .digest r.hash]⟩

theorem genuine_canon {rem : Nat} {es : List (Key × D)} (h : Segment H rem es) :
    Genuine H (canon H rem es) := by
  obtain ⟨rfl, _⟩ | ⟨⟨e, rfl⟩, _⟩ | ⟨two, _⟩ := canon_kind h
  · exact .inl canon_nil
  · exact .inr (.inl ⟨e.1, e.2, h.live e (by simp), canon_singleton e⟩)
  · obtain ⟨n, _, he⟩ := canon_of_two h two
    exact .inr (.inr ⟨_, _, he⟩)

/-- Equal hashes of computed summaries have equal kinds. -/
theorem Genuine.eq_of_hash (ideal : H.Ideal) {n m : HashedNode D} (hn : Genuine H n)
    (hm : Genuine H m) (hh : n.hash = m.hash) : n = m := by
  have ne := ideal.ne_emptyHash
  refine HashedNode.ext ?_ hh
  rcases hn with rfl | ⟨k, v, hv, rfl⟩ | ⟨l, r, rfl⟩
  · rcases hm with rfl | ⟨k', v', hv', rfl⟩ | ⟨l', r', rfl⟩
    · rfl
    · rw [HashedNode.leaf_of_ne hv'] at hh
      exact absurd hh.symm (ne _ _)
    · exact absurd hh.symm (ne _ _)
  · rw [HashedNode.leaf_of_ne hv] at hh ⊢
    rcases hm with rfl | ⟨k', v', hv', rfl⟩ | ⟨l', r', rfl⟩
    · exact absurd hh (ne _ _)
    · rw [HashedNode.leaf_of_ne hv']
    · exact absurd (ideal.injective hh).1 (by simp)
  · rcases hm with rfl | ⟨k', v', hv', rfl⟩ | ⟨l', r', rfl⟩
    · exact absurd hh (ne _ _)
    · rw [HashedNode.leaf_of_ne hv'] at hh
      exact absurd (ideal.injective hh).1 (by simp)
    · rfl

/-- Over computed rows the summary of a walk is computed, or it is a leaf sibling that is
promoted past nothing but empty rows. -/
theorem genuine_or_sibling (hn : ∀ pos ∈ t.positions, Genuine H (node pos)) (walked : t.Walked) :
    Genuine H (t.eval H node) ∨ (∀ pos ∈ t.positions, (node pos).kind = HashedNode.EMPTY) ∧
      (t.eval H node).kind = HashedNode.LEAF ∧ t.eval H node ∈ t.siblings := by
  have ofLeaf : (t.eval H node).kind = HashedNode.LEAF → Genuine H (t.eval H node) ∨
      (∀ pos ∈ t.positions, (node pos).kind = HashedNode.EMPTY) ∧
        (t.eval H node).kind = HashedNode.LEAF ∧ t.eval H node ∈ t.siblings := by
    intro hk
    obtain ⟨onlyRow, _, ⟨pos, hp, same⟩ | ⟨n, hn', rfl⟩⟩ := of_kind_leaf hk
    · exact .inl (same ▸ hn pos hp)
    · by_cases live : ∃ pos ∈ t.positions, (node pos).kind ≠ HashedNode.EMPTY
      · obtain ⟨pos, hp, live⟩ := live
        exact .inl (onlyRow pos hp live ▸ hn pos hp)
      · exact .inr ⟨by simpa using live, hk, hn'⟩
  cases t with
  | empty => exact .inl (.inl rfl)
  | leaf pos => exact .inl (hn pos (by simp [positions]))
  | sibling _ => exact walked.elim
  | both l r =>
    obtain ⟨hl, _, hc⟩ | ⟨_, hr, hc⟩ | ⟨_, _, hc⟩ | ⟨hk, hh⟩ :=
      HashedNode.combine_cases (H := H) (l.eval H node) (r.eval H node)
    · exact ofLeaf ((congrArg HashedNode.kind hc).trans hl)
    · exact ofLeaf ((congrArg HashedNode.kind hc).trans hr)
    · exact .inl (.inl hc)
    · exact .inl (.inr (.inr ⟨_, _, HashedNode.ext hk hh⟩))

end Genuine
end ProofTree
end Vprogs.Smt
