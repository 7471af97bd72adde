import Vprogs.Merkle.Dense

/-!
The streaming Merkle builder. It keeps a stack of `(level, hash)` pairs and one
counter, merges equal levels as a binary counter carries, and pads the right edge
with empty-subtree hashes only when the root is asked for.
-/
namespace Vprogs.Merkle

/-- The hasher of a builder under its node tags; `zeroed` is the `[0u8; 32]` that
fills unused stack slots. -/
structure NodeHasher (D : Type) where
  hashBranch : D → D → D
  hashEmpty : D
  zeroed : D

/-- The live part of the stack, top first, and the `u32` leaf counter. -/
structure StreamingBuilder (D : Type) where
  stack : List (Nat × D)
  leafCount : Nat
  deriving DecidableEq

namespace StreamingBuilder
variable {D : Type} (H : NodeHasher D)

def new : StreamingBuilder D := ⟨[], 0⟩

/-- `usize::BITS - leading_zeros` is the bit length of `count - 1`. -/
def requiredDepth (maxDepth count : Nat) : Nat :=
  if count ≤ 1 then 1 else min (count - 1).size maxDepth

def emptyHashesFrom (prev : D) : Nat → List D
  | 0 => []
  | levels + 1 => prev :: emptyHashesFrom (H.hashBranch prev prev) levels

def computeEmptyHashes (maxDepth : Nat) : List D :=
  emptyHashesFrom H H.hashEmpty maxDepth

/-- The loop of `add_leaf_hash` with the final push. -/
def merge (level : Nat) (current : D) : List (Nat × D) → List (Nat × D)
  | [] => [(level, current)]
  | (topLevel, topHash) :: rest =>
    if topLevel ≠ level then (level, current) :: (topLevel, topHash) :: rest
    else merge (level + 1) (H.hashBranch topHash current) rest

/-- Fails where the push would index past the end of the stack array. -/
def addLeafHash (maxDepth : Nat) (b : StreamingBuilder D) (hash : D) :
    Option (StreamingBuilder D) :=
  let stack := merge H 0 hash b.stack
  if stack.length ≤ maxDepth then some ⟨stack, (b.leafCount + 1) % 2 ^ 32⟩ else none

def addLeafHashes (maxDepth : Nat) (leaves : List D) : Option (StreamingBuilder D) :=
  leaves.foldlM (addLeafHash H maxDepth) new

/-- The loop that lifts the result by `gap` levels; it fails where it would index
past the end of the table. -/
def pad (emptyHashes : List D) : Nat → Nat → D → Option D
  | 0, _, result => some result
  | gap + 1, level, result =>
    emptyHashes[level]?.bind fun e => pad emptyHashes gap (level + 1) (H.hashBranch result e)

def assemble (emptyHashes : List D) (resultLevel : Nat) (resultHash : D) :
    List (Nat × D) → Option D
  | [] => some resultHash
  | (level, hash) :: rest =>
    (pad H emptyHashes (level - resultLevel) resultLevel resultHash).bind fun padded =>
      assemble emptyHashes (max level resultLevel + 1) (H.hashBranch hash padded) rest

def finalize (b : StreamingBuilder D) (emptyHashes : List D) : Option D :=
  if b.leafCount = 0 then emptyHashes[0]?
  else if b.leafCount = 1 then
    emptyHashes[0]?.map (H.hashBranch ((b.stack.getLast?.map Prod.snd).getD H.zeroed))
  else
    match b.stack with
    | [] => some H.zeroed
    | (level, hash) :: rest => assemble H emptyHashes level hash rest

variable {H} {leaf : Nat → D} {maxDepth level n : Nat}

theorem getElem?_emptyHashesFrom {l : Nat} (hl : l < n) (level : Nat) :
    (emptyHashesFrom H (emptyRoot H.hashBranch H.hashEmpty level) n)[l]? =
      some (emptyRoot H.hashBranch H.hashEmpty (level + l)) := by
  induction n generalizing level l with
  | zero => cases hl
  | succ n ih =>
    match l with
    | 0 => rw [emptyHashesFrom, List.getElem?_cons_zero, Nat.add_zero]
    | l + 1 =>
      have hup := ih (Nat.lt_of_succ_lt_succ hl) (level + 1)
      rwa [emptyRoot, Nat.add_right_comm, Nat.add_assoc] at hup

theorem getElem?_computeEmptyHashes {l : Nat} (hl : l < maxDepth) :
    (computeEmptyHashes H maxDepth)[l]? = some (emptyRoot H.hashBranch H.hashEmpty l) := by
  have h := getElem?_emptyHashesFrom (H := H) hl 0
  rwa [Nat.zero_add] at h

/-- Merging one more node of a level into the peaks counts one further. -/
theorem merge_peaks :
    merge H level (node H.hashBranch leaf level n) (peaks H.hashBranch leaf level n) =
      peaks H.hashBranch leaf level (n + 1) := by
  induction n using Nat.strong_induction_on generalizing level with
  | _ n ih =>
    match Nat.mod_two_eq_zero_or_one n with
    | .inl heven =>
      -- every peak is above this level, so the node is pushed as it is
      rw [peaks_of_odd (n := n + 1) (by omega), show (n + 1) / 2 = n / 2 by omega,
        peaks_of_even heven, Nat.add_sub_cancel]
      match hpeaks : peaks H.hashBranch leaf (level + 1) (n / 2) with
      | [] => rfl
      | (l, h) :: rest =>
        have hle : level + 1 ≤ l := le_of_mem_peaks (hpeaks ▸ List.mem_cons_self)
        rw [merge, if_pos (by omega)]
    | .inr hodd =>
      rw [peaks_of_odd hodd, merge, if_neg (by simp), ← node_succ_of_odd H.hashBranch hodd,
        ih (n / 2) (by omega), peaks_of_even (n := n + 1) (by omega),
        show (n + 1) / 2 = n / 2 + 1 by omega]

theorem addLeafHash_peaks {count : Nat} (hn : n + 1 < 2 ^ maxDepth) :
    addLeafHash H maxDepth ⟨peaks H.hashBranch leaf 0 n, count⟩ (leaf n) =
      some ⟨peaks H.hashBranch leaf 0 (n + 1), (count + 1) % 2 ^ 32⟩ := by
  have hmerge : merge H 0 (leaf n) (peaks H.hashBranch leaf 0 n) =
      peaks H.hashBranch leaf 0 (n + 1) := merge_peaks
  simp only [addLeafHash, hmerge, if_pos (length_peaks_le hn)]

theorem foldlM_addLeafHash (leaves : List D)
    (hleaf : ∀ i, (h : i < leaves.length) → leaf (n + i) = leaves[i])
    (hn : n + leaves.length < 2 ^ maxDepth) :
    leaves.foldlM (addLeafHash H maxDepth) ⟨peaks H.hashBranch leaf 0 n, n % 2 ^ 32⟩ =
      some ⟨peaks H.hashBranch leaf 0 (n + leaves.length), (n + leaves.length) % 2 ^ 32⟩ := by
  induction leaves generalizing n with
  | nil => rfl
  | cons hash rest ih =>
    have hhash : hash = leaf n := (hleaf 0 (Nat.succ_pos _)).symm
    have hrest : ∀ i, (h : i < rest.length) → leaf (n + 1 + i) = rest[i] := by
      intro i hi
      have h := hleaf (i + 1) (Nat.succ_lt_succ hi)
      rwa [show n + (i + 1) = n + 1 + i by omega, List.getElem_cons_succ] at h
    rw [List.length_cons] at hn
    rw [List.foldlM_cons, hhash, addLeafHash_peaks (by omega), Nat.mod_add_mod]
    change List.foldlM _ _ rest = _
    rw [ih hrest (by omega), List.length_cons, show n + 1 + rest.length = n + (rest.length + 1) by omega]

/-- The leaves of the padded tree. -/
def padded (H : NodeHasher D) (leaves : List D) (i : Nat) : D :=
  leaves.getD i H.hashEmpty

theorem addLeafHashes_eq {leaves : List D} (hn : leaves.length < 2 ^ maxDepth) :
    addLeafHashes H maxDepth leaves =
      some ⟨peaks H.hashBranch (padded H leaves) 0 leaves.length, leaves.length % 2 ^ 32⟩ := by
  have hleaf : ∀ i, (h : i < leaves.length) → padded H leaves (0 + i) = leaves[i] := by
    intro i hi
    simp [padded, hi]
  have h := foldlM_addLeafHash (H := H) leaves hleaf (by simpa using hn)
  simpa [addLeafHashes, new] using h

theorem size_eq_succ {m : Nat} (h : m ≠ 0) : m.size = (m / 2).size + 1 := by
  have hbit := Nat.size_bit (b := m.bodd) (n := m.div2) (by rwa [Nat.bit_bodd_div2])
  rwa [Nat.bit_bodd_div2, Nat.div2_val] at hbit

section Finalize
variable {emptyHashes : List D}

theorem assemble_lift {result : D} {p : Nat × D} {rest : List (Nat × D)} (h : level < p.1) :
    assemble H emptyHashes level result (p :: rest) =
      emptyHashes[level]?.bind fun e =>
        assemble H emptyHashes (level + 1) (H.hashBranch result e) (p :: rest) := by
  obtain ⟨l, hash⟩ := p
  obtain ⟨gap, rfl⟩ : ∃ gap, l = level + 1 + gap := ⟨l - (level + 1), by simp at h; omega⟩
  simp only [assemble, show level + 1 + gap - level = gap + 1 by omega, pad,
    show level + 1 + gap - (level + 1) = gap by omega, Option.bind_assoc,
    show max (level + 1 + gap) level = max (level + 1 + gap) (level + 1) by omega]

/-- The right edge at a level, put together with the peaks on its left, climbs to
the leftmost node of the level where those peaks end. -/
theorem assemble_peaks {m : Nat} (hempty : ∀ j, n ≤ j → leaf j = H.hashEmpty)
    (htable : ∀ l, l < maxDepth → emptyHashes[l]? = some (emptyRoot H.hashBranch H.hashEmpty l))
    (hn : n ≤ (m + 1) * 2 ^ level) (hdepth : level + m.size ≤ maxDepth) :
    assemble H emptyHashes level (node H.hashBranch leaf level m) (peaks H.hashBranch leaf level m) =
      some (node H.hashBranch leaf (level + m.size) 0) := by
  induction m using Nat.strong_induction_on generalizing level with
  | _ m ih =>
    by_cases hz : m = 0
    · subst hz
      rw [peaks_zero, assemble, Nat.size_zero, Nat.add_zero]
    · have hsize := size_eq_succ hz
      have hhalf : n ≤ (m / 2 + 1) * 2 ^ (level + 1) :=
        calc n ≤ (m + 1) * 2 ^ level := hn
          _ ≤ (m / 2 + 1) * 2 * 2 ^ level := Nat.mul_le_mul_right _ (by omega)
          _ = (m / 2 + 1) * 2 ^ (level + 1) := by rw [pow_succ', mul_assoc]
      have hup := ih (m / 2) (by omega) hhalf (by omega)
      rw [show level + 1 + (m / 2).size = level + m.size by omega] at hup
      match Nat.mod_two_eq_zero_or_one m with
      | .inl heven =>
        -- the right sibling starts behind the last leaf
        have hright : node H.hashBranch leaf level (m + 1) =
            emptyRoot H.hashBranch H.hashEmpty level := node_of_le hempty hn
        have hne : peaks H.hashBranch leaf (level + 1) (m / 2) ≠ [] := peaks_ne_nil (by omega)
        rw [peaks_of_even heven]
        match hpeaks : peaks H.hashBranch leaf (level + 1) (m / 2) with
        | [] => exact absurd hpeaks hne
        | p :: rest =>
          have hle : level + 1 ≤ p.1 := le_of_mem_peaks (hpeaks ▸ List.mem_cons_self)
          rw [assemble_lift hle, htable level (by omega), Option.bind_some, ← hright,
            ← node_succ_of_even H.hashBranch heven, ← hpeaks, hup]
      | .inr hodd =>
        rw [peaks_of_odd hodd, assemble, Nat.sub_self, pad, Option.bind_some, Nat.max_self,
          ← node_succ_of_odd H.hashBranch hodd, hup]

end Finalize

theorem size_pred_mul_pow {m k : Nat} : ((m + 1) * 2 ^ k - 1).size = k + m.size := by
  induction k with
  | zero => rw [pow_zero, Nat.mul_one, Nat.add_sub_cancel, Nat.zero_add]
  | succ k ih =>
    have hpos : 0 < (m + 1) * 2 ^ k := Nat.mul_pos (Nat.succ_pos m) (Nat.two_pow_pos k)
    have hpow : (m + 1) * 2 ^ (k + 1) = 2 * ((m + 1) * 2 ^ k) := by
      rw [pow_succ', Nat.mul_left_comm]
    have hhalf : ((m + 1) * 2 ^ (k + 1) - 1) / 2 = (m + 1) * 2 ^ k - 1 := by omega
    rw [size_eq_succ (by omega), hhalf, ih]
    omega

theorem requiredDepth_eq_size (h : 2 ≤ n) (hn : n < 2 ^ maxDepth) :
    requiredDepth maxDepth n = (n - 1).size := by
  have hsize : (n - 1).size ≤ maxDepth := Nat.size_le.mpr (by omega)
  rw [requiredDepth, if_neg (by omega), Nat.min_eq_left hsize]

theorem lt_two_pow_requiredDepth {i : Nat} (hi : i < n) (hn : n < 2 ^ maxDepth) :
    i < 2 ^ requiredDepth maxDepth n := by
  by_cases h : 2 ≤ n
  · rw [requiredDepth_eq_size h hn]
    exact Nat.lt_of_le_of_lt (Nat.le_sub_one_of_lt hi) (Nat.lt_size_self (n - 1))
  · have hi : i = 0 := by omega
    rw [hi]
    exact Nat.two_pow_pos _

theorem padded_of_le {leaves : List D} {j : Nat} (h : leaves.length ≤ j) :
    padded H leaves j = H.hashEmpty := by
  rw [padded, List.getD_eq_getElem?_getD, List.getElem?_eq_none h, Option.getD_none]

theorem finalize_peaks {leaves : List D} (hpos : 1 ≤ leaves.length) (hmax : leaves.length < 2 ^ maxDepth) :
    finalize H ⟨peaks H.hashBranch (padded H leaves) 0 leaves.length, leaves.length⟩
        (computeEmptyHashes H maxDepth) =
      some (root H.hashBranch (padded H leaves) (requiredDepth maxDepth leaves.length)) := by
  have hempty : ∀ j, leaves.length ≤ j → padded H leaves j = H.hashEmpty := fun _ => padded_of_le
  have ⟨k, m, hpeaks, hlen⟩ : ∃ k m, peaks H.hashBranch (padded H leaves) 0 leaves.length =
      (0 + k, node H.hashBranch (padded H leaves) (0 + k) m) ::
        peaks H.hashBranch (padded H leaves) (0 + k) m ∧ leaves.length = (m + 1) * 2 ^ k :=
    peaks_eq_cons (by omega)
  rw [Nat.zero_add] at hpeaks
  by_cases hone : leaves.length = 1
  · have hdepth : 0 < maxDepth := by
      by_contra hz
      rw [Nat.eq_zero_of_not_pos hz] at hmax
      omega
    rw [hone] at hempty ⊢
    rw [finalize, if_neg Nat.one_ne_zero, if_pos rfl, getElem?_computeEmptyHashes hdepth,
      peaks_of_odd rfl, peaks_zero, requiredDepth, if_pos (Nat.le_refl 1), root]
    simp only [node, hempty 1 (Nat.le_refl 1)]
    rfl
  · have hsize : k + m.size = (leaves.length - 1).size := by rw [hlen, size_pred_mul_pow]
    have hdepth : k + m.size ≤ maxDepth := by
      rw [hsize]
      exact Nat.size_le.mpr (by omega)
    rw [finalize, if_neg (Nat.ne_of_gt hpos), if_neg hone, hpeaks]
    simp only
    rw [assemble_peaks hempty (fun _ => getElem?_computeEmptyHashes) (by rw [hlen]) hdepth, hsize,
      requiredDepth_eq_size (by omega) hmax, root]

/-- Any non-empty list of leaf hashes that the stack and the `u32` counter can hold
is streamed to the root of its padded perfect tree, and every leaf climbs to that
root through its siblings. -/
theorem streaming_root (H : NodeHasher D) (maxDepth : Nat) (leaves : List D)
    (hpos : 1 ≤ leaves.length) (hmax : leaves.length ≤ 2 ^ maxDepth - 1)
    (hcount : leaves.length ≤ 2 ^ 32 - 1) :
    (∀ k ≤ leaves.length, ∃ b, addLeafHashes H maxDepth (leaves.take k) = some b ∧
      b.stack.length ≤ maxDepth) ∧
    ∃ b, addLeafHashes H maxDepth leaves = some b ∧
      finalize H b (computeEmptyHashes H maxDepth) =
        some (root H.hashBranch (padded H leaves) (requiredDepth maxDepth leaves.length)) ∧
      ∀ i, (hi : i < leaves.length) →
        climb H.hashBranch leaves[i] i
            (siblings H.hashBranch (padded H leaves) 0 i (requiredDepth maxDepth leaves.length)) =
          root H.hashBranch (padded H leaves) (requiredDepth maxDepth leaves.length) := by
  have hlt : leaves.length < 2 ^ maxDepth := by omega
  refine ⟨?_, _, addLeafHashes_eq hlt, ?_, ?_⟩
  · intro k hk
    have htake : (leaves.take k).length < 2 ^ maxDepth := by
      rw [List.length_take]
      omega
    exact ⟨_, addLeafHashes_eq htake, length_peaks_le htake⟩
  · rw [Nat.mod_eq_of_lt (by omega)]
    exact finalize_peaks hpos hlt
  · intro i hi
    have hleaf : padded H leaves i = leaves[i] := by simp [padded, hi]
    rw [← hleaf]
    exact climb_leaf (lt_two_pow_requiredDepth hi hlt)

/-- A hasher that counts the branches below a node. -/
def countingHasher : NodeHasher Nat where
  hashBranch l r := l + r + 1
  hashEmpty := 0
  zeroed := 0

theorem streaming_root_three :
    ∃ b, addLeafHashes countingHasher 2 [5, 6, 7] = some b ∧
      finalize countingHasher b (computeEmptyHashes countingHasher 2) =
        some (root countingHasher.hashBranch (padded countingHasher [5, 6, 7]) 2) := by
  have ⟨_, b, hb, hroot, _⟩ := streaming_root countingHasher 2 [5, 6, 7] (by decide) (by decide)
    (by decide)
  exact ⟨b, hb, hroot⟩

/-- A stack for 33 levels takes `2 ^ 32` leaves, but the counter is back at zero and
`finalize` answers with the empty leaf. -/
theorem streaming_root_wraps :
    ∃ b, addLeafHashes countingHasher 33 (List.replicate (2 ^ 32) 0) = some b ∧
      finalize countingHasher b (computeEmptyHashes countingHasher 33) = some 0 ∧
      root countingHasher.hashBranch (padded countingHasher (List.replicate (2 ^ 32) 0))
        (requiredDepth 33 (List.replicate (2 ^ 32) 0).length) ≠ 0 := by
  have hlt : (List.replicate (2 ^ 32) 0 : List Nat).length < 2 ^ 33 :=
    List.length_replicate ▸ Nat.pow_lt_pow_right Nat.one_lt_two (Nat.lt_succ_self 32)
  have hbranch : ∀ l r, countingHasher.hashBranch l r ≠ 0 := fun l r => Nat.succ_ne_zero (l + r)
  refine ⟨_, addLeafHashes_eq hlt, ?_, ?_⟩
  · rw [finalize, if_pos (by rw [List.length_replicate, Nat.mod_self]),
      getElem?_computeEmptyHashes (by decide)]
    rfl
  · rw [List.length_replicate] at hlt ⊢
    rw [requiredDepth_eq_size (by norm_num) hlt, size_eq_succ (by norm_num), root, node]
    exact hbranch _ _

end StreamingBuilder
end Vprogs.Merkle
