import Vprogs.Smt.Proof
import Vprogs.Smt.StateMap
import Vprogs.Smt.TreeSoundness

/-!
Reading values out of a multi-proof whose root matches a known state. Values
answered by a live leaf are right whoever built the proof. An empty leaf does
not commit its key, so its answer is only right when no live leaf and no sibling
of the same proof commits the key; the verifier does not check it.
-/
namespace Vprogs.Smt

namespace Proof

variable {D T : Type}

def keyAt (p : Proof D) (pos : Nat) : Key :=
  match p.leaves[pos]? with
  | some leaf => (p.keys[leaf.keyIdx]?).getD 0
  | none => 0

def valueAt (H : Hasher D) (p : Proof D) (pos : Nat) : D :=
  match p.leaves[pos]? with
  | some leaf => leaf.valueHash
  | none => H.emptyHash

def depthAt (p : Proof D) (pos : Nat) : Nat :=
  match p.leaves[pos]? with
  | some leaf => leaf.depth
  | none => 0

/-- The tree the walk over a proof visits. -/
def shape (p : Proof D) : CodecResult (ProofTree D) := do
  let (t, _) ← p.traverse ProofTree.summarizer DEPTH 0 p.leaves.length 0 ⟨0, 0⟩
  pure t

variable {p : Proof D} {s : Summarizer D T} {rem start fin level : Nat} {c c' : Cursor}

/-- Every walk follows the shape of the proof: a relation that holds at leaves
and is kept by both kinds of node relates the walk's result to the shape. -/
theorem traverse_follows_shape (R : T → ProofTree D → Prop) (hEmpty : R s.empty .empty)
    (hLeaf : ∀ pos x, s.leafHashFn pos = .ok x → R x (.leaf pos))
    (hBoth : ∀ x y l r, R x l → R y r → R (s.both x y) (.both l r))
    (hBeside : ∀ x t n g, R x t → R (s.besideSibling x n g) (ProofTree.summarizer.besideSibling t n g))
    {x : T} (h : p.traverse s rem start fin level c = .ok (x, c')) :
    ∃ t, p.traverse ProofTree.summarizer rem start fin level c = .ok (t, c') ∧ R x t := by
  induction rem using Nat.strong_induction_on generalizing start fin level c c' x with
  | _ rem ih =>
    obtain ⟨⟨rfl, rfl⟩ | ⟨hne, hd, hx⟩, rfl⟩ | ⟨go, n, rfl, hstep⟩ := traverse_eq_ok.mp h
    · exact ⟨.empty, traverse_eq_ok.mpr (.inl ⟨.inl ⟨rfl, rfl⟩, rfl⟩), hEmpty⟩
    · exact ⟨.leaf start, traverse_eq_ok.mpr (.inl ⟨.inr ⟨hne, hd, rfl⟩, rfl⟩), hLeaf _ _ hx⟩
    · rcases hstep with ⟨hb, mid, left, c₁, right, hMid, hLeft, hRight, rfl⟩ |
        ⟨hb, g, sib, c₁, child, hGoes, hSib, hChild, rfl⟩
      · obtain ⟨l, hl, hRl⟩ := ih n n.lt_succ_self hLeft
        obtain ⟨r, hr, hRr⟩ := ih n n.lt_succ_self hRight
        exact ⟨.both l r, traverse_eq_ok.mpr (.inr ⟨go, n, rfl,
          .inl ⟨hb, mid, l, c₁, r, hMid, hl, hr, rfl⟩⟩), hBoth _ _ _ _ hRl hRr⟩
      · obtain ⟨t, ht, hRt⟩ := ih n n.lt_succ_self hChild
        exact ⟨_, traverse_eq_ok.mpr (.inr ⟨go, n, rfl,
          .inr ⟨hb, g, sib, c₁, t, hGoes, hSib, ht, rfl⟩⟩), hBeside _ _ _ _ hRt⟩

theorem splitPoint_bounds {mid : Nat} (hle : start ≤ fin)
    (h : p.splitPoint start fin level = .ok mid) : start ≤ mid ∧ mid ≤ fin := by
  obtain ⟨m, hm, he⟩ := ok_bind_iff.mp h
  cases he
  have := partitionPointM_le hm
  omega

theorem atShortcutDepth_true (h : p.atShortcutDepth start fin level = .ok true) :
    fin = start + 1 ∧ p.depthAt start = level := by
  unfold atShortcutDepth at h
  split at h
  · cases h
  · rename_i hone
    obtain ⟨leaf, hl, h⟩ := ok_bind_iff.mp h
    split at h
    · cases h
    · have hd : level = leaf.depth := by simpa [pure, Except.pure] using h
      rw [orPanic_eq_ok] at hl
      refine ⟨by omega, ?_⟩
      rw [depthAt, hl, hd]

/-- The shape visits every leaf of its range once, in order and at its depth. -/
theorem shape_spec {t : ProofTree D} (hle : start ≤ fin) (hlev : level + rem = 256)
    (h : p.traverse ProofTree.summarizer rem start fin level c = .ok (t, c')) :
    t.Walked ∧ t.positions = List.range' start (fin - start) ∧ t.Leveled p.depthAt rem := by
  induction rem using Nat.strong_induction_on generalizing start fin level c c' t with
  | _ rem ih =>
    obtain ⟨⟨rfl, rfl⟩ | ⟨hne, hd, hx⟩, rfl⟩ | ⟨go, n, rfl, hstep⟩ := traverse_eq_ok.mp h
    · simp [ProofTree.Walked, ProofTree.positions, ProofTree.summarizer]
    · obtain ⟨rfl, hdepth⟩ := atShortcutDepth_true hd
      cases hx
      refine ⟨trivial, by simp [ProofTree.positions], ?_⟩
      rw [ProofTree.Leveled, hdepth, hlev]
    · rcases hstep with ⟨hb, mid, left, c₁, right, hMid, hLeft, hRight, rfl⟩ |
        ⟨hb, g, sib, c₁, child, hGoes, hSib, hChild, rfl⟩
      · obtain ⟨hm, hm'⟩ := splitPoint_bounds hle hMid
        obtain ⟨_, pl, ll⟩ := ih n n.lt_succ_self hm (by omega) hLeft
        obtain ⟨_, pr, lr⟩ := ih n n.lt_succ_self hm' (by omega) hRight
        refine ⟨trivial, ?_, ll, lr⟩
        change left.positions ++ right.positions = _
        obtain ⟨m, rfl⟩ := Nat.exists_eq_add_of_le hm
        rw [pl, pr, Nat.add_sub_cancel_left, List.range'_append_1]
        congr 1
        omega
      · obtain ⟨_, pt, lt⟩ := ih n n.lt_succ_self hle (by omega) hChild
        cases g
        · exact ⟨trivial, pt, by simp, lt⟩
        · refine ⟨trivial, ?_, lt, by simp⟩
          change child.positions ++ [] = _
          rw [List.append_nil, pt]

/-- What a resolved membership says about the tables it was read from. -/
theorem member_eq_ok {idx : Nat} {m : Member D} (h : p.member idx = .ok m) :
    ∃ ms leafKey, p.memberships[idx]? = some ms ∧ p.keys[idx]? = some m.key ∧
      p.leaves[ms.leafPos]? = some m.leaf ∧ p.keys[m.leaf.keyIdx]? = some leafKey ∧
      ((ms = .present ms.leafPos ∧ m.absent = false ∧ leafKey = m.key) ∨
        (ms = .absent ms.leafPos ∧ m.absent = true ∧ leafKey ≠ m.key ∧
          m.key.sharesPrefix leafKey m.leaf.depth = true)) := by
  obtain ⟨ms, hms, h⟩ := ok_bind_iff.mp h
  rw [okOr_eq_ok] at hms
  cases ms with
  | present pos =>
    obtain ⟨k, hk, h⟩ := ok_bind_iff.mp h
    obtain ⟨leaf, hl, h⟩ := ok_bind_iff.mp h
    obtain ⟨lk, hlk, h⟩ := ok_bind_iff.mp h
    split at h
    · cases h
    · rename_i same
      cases h
      exact ⟨_, lk, hms, okOr_eq_ok.mp hk, okOr_eq_ok.mp hl, okOr_eq_ok.mp hlk,
        .inl ⟨rfl, rfl, by simpa using same⟩⟩
  | absent pos =>
    obtain ⟨k, hk, h⟩ := ok_bind_iff.mp h
    obtain ⟨leaf, hl, h⟩ := ok_bind_iff.mp h
    obtain ⟨lk, hlk, h⟩ := ok_bind_iff.mp h
    split at h
    · cases h
    · rename_i different
      split at h
      · cases h
      · rename_i shares
        cases h
        exact ⟨_, lk, hms, okOr_eq_ok.mp hk, okOr_eq_ok.mp hl, okOr_eq_ok.mp hlk,
          .inr ⟨rfl, rfl, different, by simpa using shares⟩⟩

section Reading

variable [DecidableEq D] {H : Hasher D}

/-- The pre-state root is the hash of the proof's shape over its own leaf rows. -/
theorem root_eq_ok {d : D} (h : p.root H = .ok d) :
    ∃ t, p.shape = .ok t ∧ t.Walked ∧ t.positions = List.range p.leaves.length ∧
      t.Leveled p.depthAt DEPTH ∧
      (t.eval H (ProofTree.leafNode H p.keyAt (p.valueAt H))).hash = d := by
  obtain ⟨⟨node, c'⟩, hw, hd⟩ := ok_bind_iff.mp h
  cases hd
  obtain ⟨t, ht, he⟩ := traverse_follows_shape
    (fun x t => t.eval H (ProofTree.leafNode H p.keyAt (p.valueAt H)) = x) rfl
    (by
      intro pos x hx
      obtain ⟨leaf, hl, hx⟩ := ok_bind_iff.mp hx
      obtain ⟨k, hk, hx⟩ := ok_bind_iff.mp hx
      cases hx
      rw [Proof.leaf, okOr_eq_ok] at hl
      rw [Proof.leafKey, Proof.key, okOr_eq_ok] at hk
      simp [ProofTree.eval, ProofTree.leafNode, keyAt, valueAt, hl, hk])
    (by rintro x y l r rfl rfl; rfl)
    (by rintro x t n g rfl; exact ProofTree.eval_besideSibling ..) hw
  obtain ⟨walked, positions, leveled⟩ := shape_spec (Nat.zero_le _) rfl ht
  refine ⟨t, by simp only [shape, ht]; rfl, walked, ?_, leveled, congrArg HashedNode.hash he⟩
  rw [positions, List.range_eq_range']
  rfl

/-- The membership is answered by a leaf row that holds no value. -/
def emptyWitness (H : Hasher D) (p : Proof D) (idx : Nat) : Bool :=
  match p.memberships[idx]? with
  | some ms => decide (p.valueAt H ms.leafPos = H.emptyHash)
  | none => false

omit [DecidableEq D] in
theorem sharesPath_of_member {m : Member D} {ms : Membership} {leafKey : Key}
    (hl : p.leaves[ms.leafPos]? = some m.leaf) (hk : p.keys[m.leaf.keyIdx]? = some leafKey)
    (h : leafKey = m.key ∨ m.key.sharesPrefix leafKey m.leaf.depth = true) :
    ProofTree.SharesPath p.depthAt p.keyAt m.key ms.leafPos := by
  intro i hi
  simp only [depthAt, keyAt, hl, hk, Option.getD_some] at hi ⊢
  rcases h with rfl | h
  · rfl
  · exact ((Key.sharesPrefix_iff _ _ _).mp h).2 i hi

theorem rows_leaves (H : Hasher D) (p : Proof D) (t : ProofTree D) :
    t.Rows H p.depthAt p.keyAt (ProofTree.row H p.keyAt (p.valueAt H))
      (ProofTree.leafNode H p.keyAt (p.valueAt H)) :=
  ProofTree.rows_row p.depthAt t

/-- A summary that is not empty commits the keys below it through its hash. -/
def HashCommits (H : Hasher D) (n : HashedNode D) (k : Key) : Prop :=
  n.kind ≠ HashedNode.EMPTY ∧ ∃ rem es, Segment H rem es ∧ (canon H rem es).hash = n.hash ∧
    k ∈ es.map Prod.fst

/-- The proof commits a key: a live leaf carries it, or the hash of a sibling that the walk
takes stands for it. -/
def Commits (H : Hasher D) (p : Proof D) (k : Key) : Prop :=
  (∃ pos < p.leaves.length, p.valueAt H pos ≠ H.emptyHash ∧ p.keyAt pos = k) ∨
    ∃ t, p.shape = .ok t ∧ ∃ n ∈ t.siblings, HashCommits H n k

theorem hashCommits_iff (ideal : H.Ideal) {rem : Nat} {es : List (Key × D)} (seg : Segment H rem es)
    {n : HashedNode D} (ne : n.kind ≠ HashedNode.EMPTY) (hh : n.hash = (canon H rem es).hash)
    {k : Key} : HashCommits H n k ↔ k ∈ es.map Prod.fst := by
  constructor
  · rintro ⟨_, rem', es', seg', hh', hk⟩
    have same := (ProofTree.genuine_canon seg').eq_of_hash ideal (ProofTree.genuine_canon seg)
      (hh'.trans hh)
    exact ((perm_of_canon_eq ideal seg' seg same).map Prod.fst).mem_iff.mp hk
  · intro hk
    exact ⟨ne, rem, es, seg, hh.symm, hk⟩

/-- A proof of the root of `S` commits the keys of `S` and no others. -/
theorem commits_iff (ideal : H.Ideal) (S : StateMap H) (hRoot : p.root H = .ok S.root) (k : Key) :
    p.Commits H k ↔ k ∈ S.entries.map Prod.fst := by
  obtain ⟨t, hShape, walked, positions, leveled, hHash⟩ := root_eq_ok hRoot
  have rs := p.rows_leaves H t
  have inTree : p.Commits H k ↔
      (∃ pos ∈ t.positions, p.valueAt H pos ≠ H.emptyHash ∧ p.keyAt pos = k) ∨
        ∃ n ∈ t.siblings, HashCommits H n k := by
    simp only [Commits, hShape, Except.ok.injEq, exists_eq_left', positions, List.mem_range]
  rw [inTree]
  rcases ProofTree.genuine_or_sibling (rs.genuine leveled) walked with genuine | ⟨dead, isLeaf, found⟩
  · have he := genuine.eq_of_hash ideal (ProofTree.genuine_canon S.segment) hHash
    obtain ⟨hs, hid, perm⟩ := ProofTree.exists_hidden ideal S.segment leveled rs he
    rw [← (perm.map Prod.fst).mem_iff, List.map_append, List.mem_append]
    refine or_congr ?_ ?_
    · simp only [ProofTree.held, List.mem_map, List.mem_flatMap, ProofTree.mem_row]
      constructor
      · rintro ⟨pos, hp, live, rfl⟩
        exact ⟨_, ⟨pos, hp, rfl, live⟩, rfl⟩
      · rintro ⟨_, ⟨pos, hp, rfl, live⟩, rfl⟩
        exact ⟨pos, hp, live, rfl⟩
    · constructor
      · rintro ⟨n, hn, hc⟩
        obtain ⟨m, es, seg, rfl, sub⟩ := hid.of_sibling hn hc.1
        have hk := (hashCommits_iff ideal seg hc.1 rfl).mp hc
        exact List.map_subset _ sub hk
      · intro hk
        obtain ⟨e, he, rfl⟩ := List.mem_map.mp hk
        obtain ⟨n, hn, ne, m, es, seg, rfl, he⟩ := hid.mem_sibling he
        exact ⟨_, hn, (hashCommits_iff ideal seg ne rfl).mpr (List.mem_map_of_mem he)⟩
  · -- nothing but a promoted leaf sibling repeats the root
    have onlySib := (ProofTree.of_kind_leaf isLeaf).2.1
    constructor
    · rintro (⟨pos, hp, live, _⟩ | ⟨n, hn, hc⟩)
      · exact absurd (ProofTree.row_eq_nil.mp ((rs.nil_iff leveled hp).mp (dead pos hp))) live
      · exact (hashCommits_iff ideal S.segment hc.1 (onlySib n hn hc.1 ▸ hHash)).mp hc
    · intro hk
      refine .inr ⟨_, found, (hashCommits_iff ideal S.segment ?_ hHash).mpr hk⟩
      rw [isLeaf]
      decide

/-- Answers taken from live leaves are right for every accepted proof. -/
theorem valueHash_of_live (ideal : H.Ideal) {S : StateMap H} {t : ProofTree D}
    (leveled : t.Leveled p.depthAt DEPTH)
    (he : t.eval H (ProofTree.leafNode H p.keyAt (p.valueAt H)) = canon H DEPTH S.entries)
    {idx : Nat} {m : Member D} (hm : p.member idx = .ok m) {ms : Membership}
    (hms : p.memberships[idx]? = some ms) (hp : ms.leafPos ∈ t.positions)
    (live : p.valueAt H ms.leafPos ≠ H.emptyHash) : m.valueHash H = S.get m.key := by
  obtain ⟨ms', leafKey, hms', _, hl, hk, h⟩ := member_eq_ok hm
  obtain rfl : ms' = ms := Option.some.inj (hms'.symm.trans hms)
  have rs := p.rows_leaves H t
  have mem : (p.keyAt ms'.leafPos, p.valueAt H ms'.leafPos) ∈ S.entries := by
    obtain ⟨hs, _, perm⟩ := ProofTree.exists_hidden ideal S.segment leveled rs he
    exact perm.mem_iff.mp (List.mem_append_left _
      (List.mem_flatMap.mpr ⟨_, hp, ProofTree.mem_row.mpr ⟨rfl, live⟩⟩))
  have alone := ProofTree.row_isolated ideal S.segment leveled rs he hp
    (fun none => live (ProofTree.row_eq_nil.mp none))
  have path := sharesPath_of_member hl hk (h.imp (·.2.2) (·.2.2.2))
  simp only [keyAt, valueAt, hl, hk, Option.getD_some] at mem
  rcases h with ⟨_, habs, rfl⟩ | ⟨_, habs, hne, _⟩
  · rw [Member.valueHash, habs, S.get_of_mem mem]
    rfl
  · rw [Member.valueHash, habs, S.get_of_not_mem]
    · rfl
    · intro e he hkey
      have own := (ProofTree.mem_row.mp (alone e he (hkey ▸ path))).1
      refine hne ?_
      rw [← hkey, own]
      simp [keyAt, hl, hk]

theorem valueHash_of_emptyWitness {idx : Nat} {m : Member D} (hm : p.member idx = .ok m)
    (h : p.emptyWitness H idx = true) : m.valueHash H = H.emptyHash := by
  obtain ⟨ms, leafKey, hms, _, hl, _, _⟩ := member_eq_ok hm
  have dead : m.leaf.valueHash = H.emptyHash := by simpa [emptyWitness, valueAt, hms, hl] using h
  rw [Member.valueHash, dead, ite_self]

end Reading
end Proof

/-- One live key, the all-zero one. -/
def singleton : StateMap codeHasher where
  entries := [(0, 7)]
  sorted := by simp
  live := by simp [codeHasher]

/-- The live key is claimed empty one level down, next to a sibling that
repeats the root as a leaf summary and is promoted in its place. -/
def forgedAbsence : Proof Nat where
  keys := [0]
  leaves := [⟨1, 0, 0⟩]
  siblings := [⟨HashedNode.LEAF, singleton.root⟩]
  topology := [0]
  memberships := [.present 0]

/-- A key on either side of the root. -/
def twoSides : StateMap codeHasher where
  entries := [(0, 7), (1 <<< 255, 9)]
  sorted := by decide
  live := by decide

/-- One live and one empty leaf on the left, beside the leaf of the right side. -/
def honestHalf : Proof Nat where
  keys := [0, 1 <<< 254]
  leaves := [⟨2, 0, 7⟩, ⟨2, 1, 0⟩]
  siblings := [HashedNode.leaf codeHasher (1 <<< 255) 9]
  topology := [2]
  memberships := [.present 0, .present 1]

def honestHalfMember (idx : Nat) : Member Nat :=
  if idx = 0 then ⟨0, ⟨2, 0, 7⟩, false⟩ else ⟨1 <<< 254, ⟨2, 1, 0⟩, false⟩

def honestHalfShape : ProofTree Nat :=
  .both (.both (.leaf 0) (.leaf 1)) (.sibling (HashedNode.leaf codeHasher (1 <<< 255) 9))

theorem honestHalf_shape : honestHalf.shape = .ok honestHalfShape := by decide +kernel

/-- Neither the live leaf nor the sibling commits the key that the empty leaf answers. -/
theorem honestHalf_not_commits : ¬ honestHalf.Commits codeHasher (1 <<< 254) := by
  have seg : Segment codeHasher 255 [((1 <<< 255 : Key), 9)] := ⟨by decide, by decide, by decide, by simp⟩
  rintro (⟨pos, hp, live, hk⟩ | ⟨t, ht, n, hn, hc⟩)
  · have rows : ∀ pos < 2, honestHalf.valueAt codeHasher pos = codeHasher.emptyHash ∨
        honestHalf.keyAt pos ≠ 1 <<< 254 := by decide +kernel
    rcases rows pos hp with dead | other
    · exact live dead
    · exact other hk
  · obtain rfl := Except.ok.inj (honestHalf_shape.symm.trans ht)
    obtain rfl : n = HashedNode.leaf codeHasher (1 <<< 255) 9 := by
      simpa [honestHalfShape, ProofTree.siblings] using hn
    have hk := (Proof.hashCommits_iff codeHasher_ideal seg hc.1 (by rw [canon_singleton])).mp hc
    revert hk
    decide

end Vprogs.Smt
