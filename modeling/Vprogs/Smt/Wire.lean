import Vprogs.Smt.HonestRoots
import Vprogs.Codec.Reader

/-!
Multi-proofs on the wire. The prover sends five length-prefixed tables of
fixed-size elements, the verifier casts them back. An honest proof for a list of
keys survives the trip and answers every query as the stored map does.
-/
namespace Vprogs.Smt

/-! ### Elements -/

/-- A fixed-size array at the end of a buffer. -/
def arrOf (n : Nat) (bs : Bytes) : Option (Arr n) :=
  if h : bs.length = n then some ⟨bs, h⟩ else none

@[simp] theorem arrOf_val {n : Nat} (a : Arr n) : arrOf n a.val = some a := dif_pos a.property

abbrev Digest := Arr 32

namespace Leaf

def toBytes (l : Leaf Digest) : Bytes :=
  leBytes 2 l.depth ++ (leBytes 4 l.keyIdx ++ l.valueHash.val)

def ofBytes (bs : Bytes) : Option (Leaf Digest) := do
  let valueHash ← arrOf 32 (bs.drop 6)
  pure ⟨leNat (bs.take 2), leNat ((bs.drop 2).take 4), valueHash⟩

theorem ofBytes_toBytes {l : Leaf Digest} (hd : l.depth < 2 ^ 16) (hk : l.keyIdx < 2 ^ 32) :
    ofBytes l.toBytes = some l := by
  have depth : leNat (leBytes 2 l.depth) = l.depth := leNat_leBytes (by simpa using hd)
  have keyIdx : leNat (leBytes 4 l.keyIdx) = l.keyIdx := leNat_leBytes (by simpa using hk)
  have value : (l.toBytes).drop 6 = l.valueHash.val := by
    rw [toBytes, ← List.append_assoc, List.drop_left' (by simp)]
  rw [ofBytes, value, arrOf_val]
  simp [toBytes, depth, keyIdx]

end Leaf

namespace HashedNode

def toBytes (n : HashedNode Digest) : Bytes := n.kind :: n.hash.val

def ofBytes : Bytes → Option (HashedNode Digest)
  | [] => none
  | kind :: rest => (arrOf 32 rest).map (⟨kind, ·⟩)

theorem ofBytes_toBytes (n : HashedNode Digest) : ofBytes n.toBytes = some n := by
  simp [ofBytes, toBytes]

end HashedNode

namespace Membership

def toBytes : Membership → Bytes
  | .present pos => 0 :: leBytes 4 pos
  | .absent pos => 1 :: leBytes 4 pos

/-- Any other tag is no valid membership. -/
def ofBytes : Bytes → Option Membership
  | [] => none
  | tag :: rest =>
    if tag = 0 then some (.present (leNat rest))
    else if tag = 1 then some (.absent (leNat rest)) else none

theorem ofBytes_toBytes {m : Membership} (h : m.leafPos < 2 ^ 32) : ofBytes m.toBytes = some m := by
  have hpos : leNat (leBytes 4 m.leafPos) = m.leafPos := leNat_leBytes (by simpa using h)
  cases m with
  | present pos | absent pos =>
    simp only [leafPos] at hpos
    simp [ofBytes, toBytes, hpos]

end Membership

/-! ### Tables -/

namespace Proof

def encode (p : Proof Digest) : Bytes :=
  encodeMany p.keys Key.toBytes ++ (encodeMany p.leaves Leaf.toBytes ++
    (encodeMany p.siblings HashedNode.toBytes ++ (encodeMany p.topology (fun b => [b]) ++
      encodeMany p.memberships Membership.toBytes)))

def read : Reader CodecError (Proof Digest) := do
  let keys ← Reader.sliceAs 32 Key.ofBytes "keys"
  let leaves ← Reader.sliceAs 38 Leaf.ofBytes "leaves"
  let siblings ← Reader.sliceAs 33 HashedNode.ofBytes "siblings"
  let topology ← Reader.sliceAs 1 List.head? "topology"
  let memberships ← Reader.sliceAs 5 Membership.ofBytes "memberships"
  pure ⟨keys, leaves, siblings, topology, memberships⟩

/-- What follows the tables is not looked at. -/
def decode (buf : Bytes) : CodecResult (Proof Digest) := lift (Prod.fst <$> read.run buf)

/-- Every count and index fits the wire's integers. -/
structure FitsWire (p : Proof Digest) : Prop where
  keys : p.keys.length < 2 ^ 32
  leaves : p.leaves.length < 2 ^ 32
  siblings : p.siblings.length < 2 ^ 32
  topology : p.topology.length < 2 ^ 32
  memberships : p.memberships.length < 2 ^ 32
  leaf : ∀ l ∈ p.leaves, l.depth < 2 ^ 16 ∧ l.keyIdx < 2 ^ 32
  membership : ∀ m ∈ p.memberships, m.leafPos < 2 ^ 32

theorem decode_encode {p : Proof Digest} (h : p.FitsWire) : decode p.encode = .ok p := by
  have keys := fun rest => Reader.run_sliceAs_encodeMany (ε := CodecError)
    (fun k : Key => show k.toBytes.length = 32 from length_beBytes 32 k.toNat)
    (fun k (_ : k ∈ p.keys) => Key.ofBytes_toBytes k) h.keys "keys" rest
  have leaves := fun rest => Reader.run_sliceAs_encodeMany (ε := CodecError)
    (fun l : Leaf Digest => show l.toBytes.length = 38 by simp [Leaf.toBytes])
    (fun l hl => Leaf.ofBytes_toBytes (h.leaf l hl).1 (h.leaf l hl).2) h.leaves "leaves" rest
  have siblings := fun rest => Reader.run_sliceAs_encodeMany (ε := CodecError)
    (fun n : HashedNode Digest => show n.toBytes.length = 33 by simp [HashedNode.toBytes])
    (fun n (_ : n ∈ p.siblings) => HashedNode.ofBytes_toBytes n) h.siblings "siblings" rest
  have byte : ∀ b ∈ p.topology, List.head? [b] = some b := fun _ _ => rfl
  have topology := fun rest => Reader.run_sliceAs_encodeMany (ε := CodecError)
    (fun b : UInt8 => show [b].length = 1 from rfl) byte h.topology "topology" rest
  have memberships := Reader.run_sliceAs_encodeMany (ε := CodecError)
    (fun m : Membership => show m.toBytes.length = 5 by cases m <;> simp [Membership.toBytes])
    (fun m hm => Membership.ofBytes_toBytes (h.membership m hm)) h.memberships "memberships" []
  rw [List.append_nil] at memberships
  rw [decode, encode, read]
  simp only [Reader.run_bind, keys, leaves, siblings, topology, memberships]
  rfl

end Proof

/-! ### Sizes -/

namespace Plan

variable {D : Type}

theorem length_bits (pl : Plan D) : pl.bits.length + 1 = pl.siblings.length + pl.rows.length := by
  induction pl with
  | leaf row => rfl
  | split l r ihl ihr =>
    simp only [bits, siblings, rows, List.length_cons, List.length_append]
    omega
  | beside n g child ih =>
    simp only [bits, siblings, rows, List.length_cons]
    omega

/-- At most one sibling for each level above each row. -/
theorem Fits.length_siblings {pl : Plan D} {rem : Nat} (h : pl.Fits rem) :
    pl.siblings.length ≤ rem * pl.rows.length ∧ 1 ≤ pl.rows.length := by
  induction pl generalizing rem with
  | leaf row => exact ⟨Nat.zero_le _, Nat.le_refl _⟩
  | split l r ihl ihr =>
    cases rem with
    | zero => exact h.elim
    | succ rem =>
      obtain ⟨hl, hr, _, _⟩ := h
      obtain ⟨left, _⟩ := ihl hl
      obtain ⟨right, _⟩ := ihr hr
      simp only [siblings, rows, List.length_append, Nat.mul_add, Nat.add_mul]
      omega
  | beside n g child ih =>
    cases rem with
    | zero => exact h.elim
    | succ rem =>
      obtain ⟨below, _⟩ := ih h.1
      simp only [siblings, rows, List.length_cons, Nat.add_mul]
      omega

end Plan

section Sizes

variable {D : Type} [DecidableEq D] {H : Hasher D} {rem : Nat} {ks : List Key} {es : List (Key × D)}

/-- Every row answers a key of its own. -/
theorem length_rows_plan (asked : Asked H rem ks es) : (plan H rem ks es).rows.length ≤ ks.length := by
  refine plan_induct (P := fun _ ks _ pl => pl.rows.length ≤ ks.length) ?_ ?_ ?_ asked
  · intro rem ks es a asked _
    exact List.length_pos_iff.mpr asked.nonempty
  · intro rem ks es b _ _ _ _ ih
    exact ih
  · intro rem ks es asked _ _ ih
    have total := congrArg List.length asked.keySides
    have left := ih false
    have right := ih true
    rw [List.length_append] at total
    rw [Plan.rows, List.length_append]
    omega

end Sizes

/-- A proof for fewer than `2 ^ 24` keys fits the wire. -/
theorem Proof.Honest.fitsWire {H : Hasher Digest} {S : StateMap H} {p : Proof Digest} {keys ks : List Key}
    (h : p.Honest keys (plan H DEPTH ks S.entries)) (asked : Asked H DEPTH ks S.entries)
    (hperm : ks.Perm keys) (few : keys.length < 2 ^ 24) : p.FitsWire := by
  have fits := fits_plan asked
  have rows := length_rows_plan asked
  have siblings := fits.length_siblings.1
  have bits := (plan H DEPTH ks S.entries).length_bits
  have leaves := h.length_leaves
  have keyCount := h.length_keys
  have topology := h.length_topology
  have same := hperm.length_eq
  rw [show DEPTH = 256 from rfl] at siblings rows bits leaves topology
  refine ⟨by omega, by omega, by rw [h.siblings, show DEPTH = 256 from rfl]; omega, by omega,
    by rw [h.length_memberships]; omega, fun l hl => ?_, fun m hm => ?_⟩
  · have ⟨pos, hpos⟩ := List.mem_iff_getElem?.mp hl
    have hlt : pos < (plan H DEPTH ks S.entries).rows.length :=
      h.length_leaves ▸ (List.getElem?_eq_some_iff.mp hpos).1
    have ⟨leaf, hleaf, hdepth, _, hkey⟩ := h.leaf_at (List.getElem?_eq_getElem hlt)
    rw [hpos] at hleaf
    cases hleaf
    have deep := (fits.depth _ (List.getElem_mem hlt)).2
    have hidx := (List.getElem?_eq_some_iff.mp hkey).1
    omega
  · have ⟨i, hi⟩ := List.mem_iff_getElem?.mp hm
    have hlt : i < keys.length := h.length_memberships ▸ (List.getElem?_eq_some_iff.mp hi).1
    have ⟨pos, row, hrow, _, hms⟩ := h.membership i _ (List.getElem?_eq_getElem hlt)
    rw [hi] at hms
    cases hms
    have hpos := (List.getElem?_eq_some_iff.mp hrow).1
    have same : (row.membership keys[i] pos).leafPos = pos := by
      unfold Row.membership
      split <;> rfl
    rw [show DEPTH = 256 from rfl] at hpos
    omega

/-! ### Completeness -/

/-- `Tree::prove` with the wire encoding of its result. -/
def Tree.proveBytes (H : Hasher Digest) (node : Reads Digest) (keys : List Key) :
    CodecResult Bytes := do
  let p ← Tree.prove H node keys
  pure p.encode

/-- The bytes proved for `keys` decode to a proof that answers as the map `S`
does: its root, each key's value, and both roots of any change of the keys, the
second being what the store itself returns at a version after `v`. -/
def AnswersFor {H : Hasher Digest} (node : Reads Digest) (S : StateMap H) (v : Nat)
    (keys : List Key) : Prop :=
  ∃ bytes p, Tree.proveBytes H node keys = .ok bytes ∧ Proof.decode bytes = .ok p ∧
    p.root H = .ok S.root ∧
    (∀ (i : Nat) k, keys[i]? = some k →
      ∃ m, p.member i = .ok m ∧ m.key = k ∧ m.valueHash H = S.get k) ∧
    (keys.Pairwise (· < ·) → p.checkSortedQueriedKeys = .ok ()) ∧
    ∀ newValue version, v < version → ∃ r wb,
      Tree.update H node (keys.mapIdx fun i k => (k, newValue i)) version = .ok (r, wb) ∧
        p.computeRoots H newValue = .ok (S.root, r)

section

variable {H : Hasher Digest} {node : Reads Digest} {S : StateMap H} {v : Nat} {keys : List Key}

theorem answersFor_of_ne_nil (stored : Stores H node DEPTH NodeKey.ROOT S.entries)
    (genesis : v = 0 → S.entries = []) (nonempty : keys ≠ []) (nodup : keys.Nodup)
    (few : keys.length < 2 ^ 24) : AnswersFor node S v keys := by
  have ⟨ks, p, hperm, asked, hprove, honest⟩ := prove_honest stored nonempty nodup
  refine ⟨p.encode, p, ok_bind_iff.mpr ⟨p, hprove, rfl⟩,
    Proof.decode_encode (honest.fitsWire asked hperm few), honest.root_eq asked,
    fun i k hk => honest.member_eq asked hk, honest.checkSortedQueriedKeys_eq, ?_⟩
  intro newValue version later
  have ⟨wb, hupdate⟩ := Tree.update_root stored (keys.mapIdx fun i k => (k, newValue i))
    (show 0 < version by omega) (fun h => genesis (by omega))
  refine ⟨_, wb, hupdate, ?_⟩
  rw [honest.computeRoots_eq asked hperm, honest.allUpdates_eq]

/-- No keys: the proof is the empty one, whatever the tree holds. -/
theorem proveBytes_nil : Tree.proveBytes H node [] = .ok (Proof.encode ⟨[], [], [], [], []⟩) := by
  unfold Tree.proveBytes Tree.prove ProofBuilder.build ProofBuilder.collect
  rfl

theorem decode_empty : Proof.decode (Proof.encode ⟨[], [], [], [], []⟩) = .ok ⟨[], [], [], [], []⟩ :=
  Proof.decode_encode ⟨by simp, by simp, by simp, by simp, by simp, by simp, by simp⟩

theorem root_empty : (⟨[], [], [], [], []⟩ : Proof Digest).root H = .ok H.emptyHash := by
  unfold Proof.root Proof.walk Proof.traverse
  rfl

theorem computeRoots_empty (newValue : Nat → Digest) :
    (⟨[], [], [], [], []⟩ : Proof Digest).computeRoots H newValue =
      .ok (H.emptyHash, H.emptyHash) := by
  unfold Proof.computeRoots Proof.walkPair Proof.traverse
  rfl

theorem answersFor_nil (stored : Stores H node DEPTH NodeKey.ROOT S.entries)
    (hS : S.entries = []) : AnswersFor node S v [] := by
  have hroot : S.root = H.emptyHash := by
    rw [StateMap.root, hS, canon_nil]
    rfl
  refine ⟨_, _, proveBytes_nil, decode_empty, root_empty.trans (congrArg _ hroot.symm),
    fun i k hk => by simp at hk, fun _ => rfl, fun newValue version later => ?_⟩
  obtain ⟨wb, hupdate⟩ := Tree.update_root stored [] (show 0 < version by omega) (fun _ => hS)
  refine ⟨_, wb, hupdate, (computeRoots_empty newValue).trans ?_⟩
  rw [StateMap.setAll, List.foldl_nil, hroot]

/-- Proofs are complete, except that a proof for no keys has the root of an empty
tree. No node of a nonempty tree may hash to `EMPTY_HASH`; fewer than `2 ^ 24` keys
keep every table within the wire's 32-bit counts. -/
theorem prove_complete_iff (nonzero : S.entries ≠ [] → S.root ≠ H.emptyHash)
    (stored : Stores H node DEPTH NodeKey.ROOT S.entries) (genesis : v = 0 → S.entries = [])
    (nodup : keys.Nodup) (few : keys.length < 2 ^ 24) :
    AnswersFor node S v keys ↔ keys ≠ [] ∨ S.entries = [] := by
  constructor
  · intro h
    by_contra hne
    simp only [not_or, not_not] at hne
    have ⟨hkeys, hS⟩ := hne
    subst hkeys
    have ⟨bytes, p, hprove, hdecode, hroot, _⟩ := h
    rw [proveBytes_nil] at hprove
    cases hprove
    rw [decode_empty] at hdecode
    cases hdecode
    rw [root_empty] at hroot
    exact nonzero hS (Except.ok.inj hroot).symm
  · intro h
    by_cases hkeys : keys = []
    · subst hkeys
      exact answersFor_nil stored (h.resolve_left (absurd rfl))
    · exact answersFor_of_ne_nil stored genesis hkeys nodup few

end

/-- A hash that is never zero. -/
def constHasher : Hasher Digest where
  emptyHash := Arr.fill 0
  hashPartsWithDomain _ _ := Arr.fill 1

/-- A resource on either side of the root, and the store that holds them. -/
def twoEntries : StateMap constHasher where
  entries := [(0, Arr.fill 2), (1 <<< 255, Arr.fill 3)]
  sorted := by decide
  live := by decide

def twoEntriesReads : Reads Digest := fun key =>
  if key.level = 0 then some (1, .internal (Arr.fill 1))
  else if key.level = 1 then
    if key.path = 0 then some (1, Node.mkLeaf constHasher 0 (Arr.fill 2))
    else some (1, Node.mkLeaf constHasher (1 <<< 255) (Arr.fill 3))
  else none

theorem twoEntries_stored :
    Stores constHasher twoEntriesReads DEPTH NodeKey.ROOT twoEntries.entries := by
  have none : ∀ k : NodeKey, 2 ≤ k.level → twoEntriesReads.live k = none := by
    intro k hk
    simp [Reads.live, twoEntriesReads, show k.level ≠ 0 by omega, show k.level ≠ 1 by omega]
  have left : below 255 false twoEntries.entries = [(0, Arr.fill 2)] := by decide +kernel
  have right : below 255 true twoEntries.entries = [((1 <<< 255 : Key), Arr.fill 3)] := by
    decide +kernel
  refine ⟨by decide +kernel, ?_, ?_⟩
  · rw [left]
    exact ⟨rfl, stores_nil none, stores_nil none⟩
  · rw [right]
    exact ⟨rfl, stores_nil none, stores_nil none⟩

/-- A present and an absent key of the left side, beside the right side as a sibling. -/
theorem twoEntries_answers : AnswersFor twoEntriesReads twoEntries 1 [0, 1 <<< 254] :=
  (prove_complete_iff (fun _ => by decide +kernel) twoEntries_stored (by decide) (by decide)
    (by decide)).mpr (.inl (by simp))

/-- A proof for no keys from the same store does not verify against its root. -/
theorem twoEntries_nil : ¬AnswersFor twoEntriesReads twoEntries 1 [] := by
  rintro ⟨bytes, p, hprove, hdecode, hroot, _⟩
  rw [proveBytes_nil] at hprove
  cases hprove
  rw [decode_empty] at hdecode
  cases hdecode
  rw [root_empty] at hroot
  exact absurd (Except.ok.inj hroot) (by decide +kernel)

end Vprogs.Smt
