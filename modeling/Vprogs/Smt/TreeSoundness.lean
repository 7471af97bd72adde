import Vprogs.Smt.ProofTree

/-!
What a proof tree says about the canonical tree with the same summary. A row may stand
for any number of entries, so the results hold before and after an update. Rows and
siblings together account for every entry; where a promoted leaf or an empty sibling
was never hashed, nothing ties it to its place.
-/
namespace Vprogs.Smt.ProofTree

variable {D : Type} [DecidableEq D] {H : Hasher D} {key : Nat → Key} {depth : Nat → Nat}
  {rows : Nat → List (Key × D)} {node : Nat → HashedNode D} {rem : Nat} {es hs : List (Key × D)}
  {t l r : ProofTree D}

/-- Two keys agree on the path down to a row's depth. -/
def SharesPath (depth : Nat → Nat) (key : Nat → Key) (k : Key) (pos : Nat) : Prop :=
  ∀ i < depth pos, k.getMsb i = (key pos).getMsb i

/-- The entries of all rows. -/
def held (rows : Nat → List (Key × D)) (t : ProofTree D) : List (Key × D) := t.positions.flatMap rows

/-- The entries below each row of a tree, all on the path of the row's key, and the
summary of each row. -/
structure Rows (H : Hasher D) (depth : Nat → Nat) (key : Nat → Key) (rows : Nat → List (Key × D))
    (node : Nat → HashedNode D) (t : ProofTree D) : Prop where
  segment : ∀ pos ∈ t.positions, ∀ rem, depth pos + rem = 256 → Segment H rem (rows pos)
  summary : ∀ pos ∈ t.positions, ∀ rem, depth pos + rem = 256 → node pos = canon H rem (rows pos)
  path : ∀ pos ∈ t.positions, ∀ e ∈ rows pos, SharesPath depth key e.1 pos

namespace Rows

theorem left (rs : Rows H depth key rows node (both l r)) : Rows H depth key rows node l :=
  ⟨fun pos hp => rs.segment pos (List.mem_append_left _ hp),
    fun pos hp => rs.summary pos (List.mem_append_left _ hp),
    fun pos hp => rs.path pos (List.mem_append_left _ hp)⟩

theorem right (rs : Rows H depth key rows node (both l r)) : Rows H depth key rows node r :=
  ⟨fun pos hp => rs.segment pos (List.mem_append_right _ hp),
    fun pos hp => rs.summary pos (List.mem_append_right _ hp),
    fun pos hp => rs.path pos (List.mem_append_right _ hp)⟩

theorem genuine (rs : Rows H depth key rows node t) (lev : t.Leveled depth rem) :
    ∀ pos ∈ t.positions, Genuine H (node pos) := by
  intro pos hp
  have hd : depth pos + (256 - depth pos) = 256 := by
    have := lev.depth_le hp
    omega
  rw [rs.summary pos hp _ hd]
  exact genuine_canon (rs.segment pos hp _ hd)

theorem nil_iff (rs : Rows H depth key rows node t) (lev : t.Leveled depth rem) {pos : Nat}
    (hp : pos ∈ t.positions) : (node pos).kind = HashedNode.EMPTY ↔ rows pos = [] := by
  have hd : depth pos + (256 - depth pos) = 256 := by
    have := lev.depth_le hp
    omega
  rw [rs.summary pos hp _ hd]
  exact ⟨canon_eq_nil (rs.segment pos hp _ hd), fun h => by simp [h]⟩

theorem held_eq_nil (rs : Rows H depth key rows node t) (lev : t.Leveled depth rem)
    (hk : (t.eval H node).kind = HashedNode.EMPTY) : t.held rows = [] :=
  List.flatMap_eq_nil_iff.mpr fun pos hp => (rs.nil_iff lev hp).mp ((of_kind_empty hk).1 pos hp)

end Rows

/-- Some sibling is neither empty nor a leaf. -/
def Deep (t : ProofTree D) : Prop :=
  ∃ n ∈ t.siblings, n.kind ≠ HashedNode.EMPTY ∧ n.kind ≠ HashedNode.LEAF

/-- The entries that the siblings of a tree stand for. Above a deep sibling every node is
hashed, so its entries lie on their own side; a leaf sibling may have been promoted. -/
inductive Hidden (H : Hasher D) : Nat → ProofTree D → List (Key × D) → Prop
  | empty {rem : Nat} : Hidden H rem .empty []
  | leaf {rem pos : Nat} : Hidden H rem (.leaf pos) []
  | absent {rem : Nat} {n : HashedNode D} : n.kind = HashedNode.EMPTY → Hidden H rem (.sibling n) []
  | sibling {rem : Nat} {es : List (Key × D)} : Segment H rem es → es ≠ [] →
      Hidden H rem (.sibling (canon H rem es)) es
  | both {rem : Nat} {l r : ProofTree D} {hl hr : List (Key × D)} :
      Hidden H rem l hl → Hidden H rem r hr →
      (l.Deep → ∀ e ∈ hl, e.1.getMsb (255 - rem) = false) →
      (r.Deep → ∀ e ∈ hr, e.1.getMsb (255 - rem) = true) →
      Hidden H (rem + 1) (.both l r) (hl ++ hr)

omit [DecidableEq D] in
theorem not_deep_of_kind (hk : (t.eval H node).kind = HashedNode.EMPTY ∨
    (t.eval H node).kind = HashedNode.LEAF) : ¬ t.Deep := by
  rintro ⟨n, hn, notEmpty, notLeaf⟩
  rcases hk with hk | hk
  · exact notEmpty ((of_kind_empty hk).2 n hn)
  · exact notLeaf ((of_kind_leaf hk).2.1 n hn notEmpty ▸ hk)

omit [DecidableEq D] in
theorem held_both_append (rows : Nat → List (Key × D)) (l r : ProofTree D) (hl hr : List (Key × D)) :
    ((both l r).held rows ++ (hl ++ hr)).Perm ((l.held rows ++ hl) ++ (r.held rows ++ hr)) := by
  rw [held, positions, List.flatMap_append, List.append_assoc, List.append_assoc]
  exact (List.perm_append_comm_assoc _ _ _).append_left _

namespace Hidden

theorem nil (lev : t.Leveled depth rem) (h : ∀ n ∈ t.siblings, n.kind = HashedNode.EMPTY) :
    Hidden H rem t [] := by
  induction t generalizing rem with
  | empty => exact .empty
  | leaf pos => exact .leaf
  | sibling n => exact .absent (h n (by simp [siblings]))
  | both l r ihl ihr =>
    cases rem with
    | zero => exact lev.elim
    | succ m =>
      exact .both (ihl lev.1 fun n hn => h n (List.mem_append_left _ hn))
        (ihr lev.2 fun n hn => h n (List.mem_append_right _ hn)) (by simp) (by simp)

/-- Every hidden entry lies below a sibling that is not empty. -/
theorem mem_sibling (hid : Hidden H rem t hs) {e : Key × D} (he : e ∈ hs) :
    ∃ n ∈ t.siblings, n.kind ≠ HashedNode.EMPTY ∧
      ∃ m es, Segment H m es ∧ n = canon H m es ∧ e ∈ es := by
  induction hid with
  | empty | leaf | absent _ => cases he
  | sibling seg ne =>
    exact ⟨_, by simp [siblings], fun hk => ne (canon_eq_nil seg hk), _, _, seg, rfl, he⟩
  | both _ _ _ _ ihl ihr =>
    rcases List.mem_append.mp he with he | he
    · obtain ⟨n, hn, h⟩ := ihl he
      exact ⟨n, List.mem_append_left _ hn, h⟩
    · obtain ⟨n, hn, h⟩ := ihr he
      exact ⟨n, List.mem_append_right _ hn, h⟩

theorem eq_nil (hid : Hidden H rem t hs) (h : ∀ n ∈ t.siblings, n.kind = HashedNode.EMPTY) :
    hs = [] := by
  refine List.eq_nil_iff_forall_not_mem.mpr fun e he => ?_
  obtain ⟨n, hn, ne, _⟩ := hid.mem_sibling he
  exact ne (h n hn)

/-- What a sibling that is not empty stands for is hidden in the tree. -/
theorem of_sibling (hid : Hidden H rem t hs) {n : HashedNode D} (hn : n ∈ t.siblings)
    (ne : n.kind ≠ HashedNode.EMPTY) :
    ∃ m es, Segment H m es ∧ n = canon H m es ∧ ∀ e ∈ es, e ∈ hs := by
  induction hid with
  | empty | leaf => cases hn
  | absent hk =>
    obtain rfl := List.mem_singleton.mp hn
    exact absurd hk ne
  | sibling seg _ =>
    obtain rfl := List.mem_singleton.mp hn
    exact ⟨_, _, seg, rfl, fun _ he => he⟩
  | both _ _ _ _ ihl ihr =>
    rcases List.mem_append.mp hn with hn | hn
    · obtain ⟨m, es, seg, he, sub⟩ := ihl hn
      exact ⟨m, es, seg, he, fun e h => List.mem_append_left _ (sub e h)⟩
    · obtain ⟨m, es, seg, he, sub⟩ := ihr hn
      exact ⟨m, es, seg, he, fun e h => List.mem_append_right _ (sub e h)⟩

theorem live (hid : Hidden H rem t hs) : ∀ e ∈ hs, e.2 ≠ H.emptyHash := by
  intro e he
  obtain ⟨_, _, _, _, es, seg, _, he⟩ := hid.mem_sibling he
  exact seg.live e he

/-- Without deep siblings every hidden entry is a leaf sibling. -/
theorem leaf_mem_siblings (hid : Hidden H rem t hs) (shallow : ¬ t.Deep) {e : Key × D} (he : e ∈ hs) :
    HashedNode.leaf H e.1 e.2 ∈ t.siblings := by
  obtain ⟨n, hn, ne, m, es, seg, rfl, he⟩ := hid.mem_sibling he
  have isLeaf : (canon H m es).kind = HashedNode.LEAF := by
    by_contra hk
    exact shallow ⟨_, hn, ne, hk⟩
  obtain ⟨x, rfl⟩ := canon_eq_singleton seg isLeaf
  obtain rfl := List.mem_singleton.mp he
  rwa [canon_singleton] at hn

end Hidden

/-- Rows and siblings of a tree with a canonical summary hold exactly its entries. -/
theorem exists_hidden (ideal : H.Ideal) (seg : Segment H rem es) (lev : t.Leveled depth rem)
    (rs : Rows H depth key rows node t) (he : t.eval H node = canon H rem es) :
    ∃ hs, Hidden H rem t hs ∧ (t.held rows ++ hs).Perm es := by
  induction t generalizing rem es with
  | empty =>
    have none := canon_eq_nil seg (by rw [← he]; rfl)
    exact ⟨[], .empty, by simp [none, held, positions]⟩
  | leaf pos =>
    have mem : pos ∈ (leaf pos : ProofTree D).positions := by simp [positions]
    rw [Leveled] at lev
    refine ⟨[], .leaf, ?_⟩
    have same := (rs.summary pos mem rem lev).symm.trans he
    simpa [held, positions] using perm_of_canon_eq ideal (rs.segment pos mem rem lev) seg same
  | sibling n =>
    obtain rfl : n = canon H rem es := he
    by_cases none : es = []
    · exact ⟨[], .absent (by simp [none]), by simp [none, held, positions]⟩
    · exact ⟨es, .sibling seg none, by simp [held, positions]⟩
  | both l r ihl ihr =>
    cases rem with
    | zero => exact lev.elim
    | succ m =>
      rw [eval] at he
      have none : ∀ {c : ProofTree D}, Rows H depth key rows node c → c.Leveled depth m →
          (c.eval H node).kind = HashedNode.EMPTY → Hidden H m c [] ∧ c.held rows ++ [] = [] := by
        intro c rsC levC hk
        exact ⟨.nil levC (of_kind_empty hk).2, by rw [rsC.held_eq_nil levC hk, List.nil_append]⟩
      obtain ⟨hl, hr, hc⟩ | ⟨hl, hr, hc⟩ | ⟨hl, hr, hc⟩ | ⟨hk, hh⟩ :=
        HashedNode.combine_cases (H := H) (l.eval H node) (r.eval H node)
      · -- a promoted leaf is the only entry
        obtain ⟨e, rfl⟩ := canon_eq_singleton seg (by rw [← he, hc, hl])
        have segE := seg.side (e.1.getMsb (255 - m))
        rw [side_singleton_same rfl] at segE
        obtain ⟨xs, hx, px⟩ := ihl segE lev.1 rs.left
          ((hc.symm.trans he).trans ((canon_singleton e).trans (canon_singleton e).symm))
        obtain ⟨hy, py⟩ := none rs.right lev.2 hr
        refine ⟨xs ++ [], .both hx hy (fun deep => absurd deep (not_deep_of_kind (.inr hl)))
          (fun deep => absurd deep (not_deep_of_kind (.inl hr))), ?_⟩
        refine (held_both_append ..).trans ?_
        rwa [py, List.append_nil]
      · obtain ⟨e, rfl⟩ := canon_eq_singleton seg (by rw [← he, hc, hr])
        have segE := seg.side (e.1.getMsb (255 - m))
        rw [side_singleton_same rfl] at segE
        obtain ⟨ys, hy, py⟩ := ihr segE lev.2 rs.right
          ((hc.symm.trans he).trans ((canon_singleton e).trans (canon_singleton e).symm))
        obtain ⟨hx, px⟩ := none rs.left lev.1 hl
        refine ⟨[] ++ ys, .both hx hy (fun deep => absurd deep (not_deep_of_kind (.inl hl)))
          (fun deep => absurd deep (not_deep_of_kind (.inr hr))), ?_⟩
        refine (held_both_append ..).trans ?_
        rwa [px, List.nil_append]
      · obtain ⟨hx, px⟩ := none rs.left lev.1 hl
        obtain ⟨hy, py⟩ := none rs.right lev.2 hr
        have empty := canon_eq_nil seg (by rw [← he, hc]; rfl)
        refine ⟨[] ++ [], .both hx hy (by simp) (by simp), ?_⟩
        refine (held_both_append ..).trans ?_
        rw [px, py, empty, List.append_nil]
      · rw [he] at hk hh
        obtain ⟨m', hm, hL, hR⟩ := canon_eq_internal ideal seg hk hh
        cases hm
        obtain ⟨xs, hx, px⟩ := ihl (seg.side false) lev.1 rs.left hL
        obtain ⟨ys, hy, py⟩ := ihr (seg.side true) lev.2 rs.right hR
        refine ⟨xs ++ ys, .both hx hy (fun _ e he => ?_) (fun _ e he => ?_), ?_⟩
        · exact (mem_side.mp (px.mem_iff.mp (List.mem_append_right _ he))).2
        · exact (mem_side.mp (py.mem_iff.mp (List.mem_append_right _ he))).2
        · exact (held_both_append ..).trans ((px.append py).trans (side_append_perm m es))

/-- No entry but the row's own lies on the path of a row that holds something. -/
theorem row_isolated (ideal : H.Ideal) (seg : Segment H rem es) (lev : t.Leveled depth rem)
    (rs : Rows H depth key rows node t) (he : t.eval H node = canon H rem es) {pos : Nat}
    (hp : pos ∈ t.positions) (live : rows pos ≠ []) :
    ∀ e ∈ es, SharesPath depth key e.1 pos → e ∈ rows pos := by
  induction t generalizing rem es with
  | empty | sibling _ => cases hp
  | leaf q =>
    obtain rfl := List.mem_singleton.mp hp
    rw [Leveled] at lev
    have same := (rs.summary pos hp rem lev).symm.trans he
    intro e hmem _
    exact (perm_of_canon_eq ideal (rs.segment pos hp rem lev) seg same).mem_iff.mpr hmem
  | both l r ihl ihr =>
    intro e hmem path
    obtain ⟨x, hx⟩ := List.exists_mem_of_ne_nil _ live
    have single : (∃ y, es = [y]) → e ∈ rows pos := by
      rintro ⟨y, rfl⟩
      obtain ⟨hs, _, perm⟩ := exists_hidden ideal seg lev rs he
      have hxe : x ∈ [y] :=
        perm.mem_iff.mp (List.mem_append_left _ (List.mem_flatMap.mpr ⟨pos, hp, hx⟩))
      rwa [List.mem_singleton.mp hmem, ← List.mem_singleton.mp hxe]
    rw [eval] at he
    obtain ⟨hl, _, hc⟩ | ⟨_, hr, hc⟩ | ⟨_, _, hc⟩ | ⟨hk, hh⟩ :=
      HashedNode.combine_cases (H := H) (l.eval H node) (r.eval H node)
    · exact single (canon_eq_singleton seg (by rw [← he, hc, hl]))
    · exact single (canon_eq_singleton seg (by rw [← he, hc, hr]))
    · have none := canon_eq_nil seg (by rw [← he, hc]; rfl)
      rw [none] at hmem
      cases hmem
    · rw [he] at hk hh
      obtain ⟨m, rfl, hL, hR⟩ := canon_eq_internal ideal seg hk hh
      have hbound := seg.bound
      -- the row's own entries fix the side on which its path goes on
      have onSide : ∀ {c : ProofTree D} {b : Bool}, pos ∈ c.positions → c.Leveled depth m →
          Rows H depth key rows node c → c.eval H node = canon H m (side m b es) →
          e ∈ side m b es := by
        intro c b hc levC rsC heC
        obtain ⟨hs, _, perm⟩ := exists_hidden ideal (seg.side b) levC rsC heC
        have hxb := (mem_side.mp (perm.mem_iff.mp
          (List.mem_append_left _ (List.mem_flatMap.mpr ⟨pos, hc, hx⟩)))).2
        have deep := (levC.depth_le hc).1
        refine mem_side.mpr ⟨hmem, ?_⟩
        rw [path _ (by omega), ← rs.path pos hp x hx _ (by omega), hxb]
      rcases List.mem_append.mp hp with hp | hp
      · exact ihl (seg.side false) lev.1 rs.left hL hp e (onSide hp lev.1 rs.left hL) path
      · exact ihr (seg.side true) lev.2 rs.right hR hp e (onSide hp lev.2 rs.right hR) path

/-! ### Trees whose rows were replaced -/

/-- The kind of a subtree's summary, by what its rows hold. -/
def kind (rows : Nat → List (Key × D)) : ProofTree D → UInt8
  | .empty => HashedNode.EMPTY
  | .leaf pos =>
    match rows pos with
    | [] => HashedNode.EMPTY
    | [_] => HashedNode.LEAF
    | _ :: _ :: _ => HashedNode.INTERNAL
  | .sibling n => n.kind
  | .both l r => HashedNode.combineKind (kind rows l) (kind rows r)

theorem eval_kind (rs : Rows H depth key rows node t) (lev : t.Leveled depth rem) :
    (t.eval H node).kind = t.kind rows := by
  induction t generalizing rem with
  | empty | sibling _ => rfl
  | leaf pos =>
    have mem : pos ∈ (leaf pos : ProofTree D).positions := by simp [positions]
    rw [Leveled] at lev
    rw [eval, rs.summary pos mem rem lev, kind]
    obtain ⟨h, hk⟩ | ⟨⟨e, h⟩, hk⟩ | ⟨two, hk⟩ := canon_kind (rs.segment pos mem rem lev)
    · rw [hk, h]
    · rw [hk, h]
    · rw [hk]
      generalize rows pos = xs at two
      rcases xs with _ | ⟨_, _ | ⟨_, _⟩⟩
      · simp at two
      · simp at two
      · rfl
  | both l r ihl ihr =>
    cases rem with
    | zero => exact lev.elim
    | succ n => rw [eval, kind, HashedNode.combine_kind, ihl rs.left lev.1, ihr rs.right lev.2]

/-- What the child on side `b` of a hashed node must be like: rows that hold something
follow their key, a leaf sibling is the leaf of a key of that side, and the child is
not an empty sibling with a hash. -/
structure Beside (H : Hasher D) (rows : Nat → List (Key × D)) (key : Nat → Key) (level : Nat)
    (b : Bool) (c : ProofTree D) : Prop where
  placed : ∀ pos ∈ c.positions, rows pos ≠ [] → (key pos).getMsb level = b
  leaves : ∀ n ∈ c.siblings, n.kind = HashedNode.LEAF →
    ∃ k v, v ≠ H.emptyHash ∧ n = HashedNode.leaf H k v ∧ k.getMsb level = b
  clean : ∀ n, c = .sibling n → n.kind = HashedNode.EMPTY → n.hash = H.emptyHash

/-- Both children of every node that is hashed stand on their side. Below a promoted
leaf and below an empty summary nothing is asked. -/
def Sided (H : Hasher D) (rows : Nat → List (Key × D)) (key : Nat → Key) : Nat → ProofTree D → Prop
  | level, .both l r => (both l r).kind rows = HashedNode.INTERNAL →
    Beside H rows key level false l ∧ Beside H rows key level true r ∧
      Sided H rows key (level + 1) l ∧ Sided H rows key (level + 1) r
  | _, .empty | _, .leaf _ | _, .sibling _ => True

theorem sided_of_kind_ne {level : Nat} (hk : t.kind rows ≠ HashedNode.INTERNAL) :
    t.Sided H rows key level := by
  cases t with
  | empty | leaf _ | sibling _ => trivial
  | both l r => exact fun h => absurd h hk

/-- Below a hashed root every leaf sibling is the leaf of some entry. -/
theorem Sided.leaf_sibling {level : Nat} (sided : t.Sided H rows key level) (walked : t.Walked)
    (hk : t.kind rows = HashedNode.INTERNAL) {n : HashedNode D} (hn : n ∈ t.siblings)
    (isLeaf : n.kind = HashedNode.LEAF) : ∃ k v, v ≠ H.emptyHash ∧ n = HashedNode.leaf H k v := by
  cases t with
  | empty | leaf _ => cases hn
  | sibling _ => exact walked.elim
  | both l r =>
    obtain ⟨besideL, besideR, _⟩ := sided hk
    rcases List.mem_append.mp hn with hn | hn
    · obtain ⟨k, v, hv, h, _⟩ := besideL.leaves n hn isLeaf
      exact ⟨k, v, hv, h⟩
    · obtain ⟨k, v, hv, h, _⟩ := besideR.leaves n hn isLeaf
      exact ⟨k, v, hv, h⟩

/-- Beside a leaf sibling that is no leaf, rows that stand on their sides hold nothing. -/
theorem Sided.rows_empty {level : Nat} (sided : t.Sided H rows key level) (walked : t.Walked)
    (lev : t.Leveled depth rem) (rs : Rows H depth key rows node t) {n : HashedNode D}
    (hn : n ∈ t.siblings) (isLeaf : n.kind = HashedNode.LEAF) (forged : ¬ Genuine H n) :
    ∀ pos ∈ t.positions, (node pos).kind = HashedNode.EMPTY := by
  rcases genuine_or_sibling (rs.genuine lev) walked with genuine | ⟨empty, _⟩
  · exfalso
    rcases genuine with he | ⟨k, v, hv, he⟩ | ⟨l, r, he⟩
    · have hEmpty := (of_kind_empty (congrArg HashedNode.kind he)).2 n hn
      rw [hEmpty] at isLeaf
      cases isLeaf
    · have hk : (t.eval H node).kind = HashedNode.LEAF := by rw [he, HashedNode.leaf_kind_of_ne hv]
      have same := (of_kind_leaf hk).2.1 n hn (by rw [isLeaf]; decide)
      exact forged (.inr (.inl ⟨k, v, hv, same.trans he⟩))
    · have hk := (eval_kind rs lev).symm.trans (congrArg HashedNode.kind he)
      exact forged (.inr (.inl (sided.leaf_sibling walked hk hn isLeaf)))
  · exact empty

/-- A tree with a canonical summary stands on its sides wherever it is hashed. -/
theorem sided_of_eval (ideal : H.Ideal) (seg : Segment H rem es) (lev : t.Leveled depth rem)
    (rs : Rows H depth key rows node t) (he : t.eval H node = canon H rem es) :
    t.Sided H rows key (256 - rem) := by
  induction t generalizing rem es with
  | empty | leaf _ | sibling _ => trivial
  | both l r ihl ihr =>
    intro hk
    rw [← eval_kind rs lev] at hk
    have hashed := hk
    rw [eval] at he hashed
    obtain ⟨hl, _, hc⟩ | ⟨_, hr, hc⟩ | ⟨_, _, hc⟩ | ⟨_, hh⟩ :=
      HashedNode.combine_cases (H := H) (l.eval H node) (r.eval H node)
    · rw [hc, hl] at hashed; cases hashed
    · rw [hc, hr] at hashed; cases hashed
    · rw [hc] at hashed; cases hashed
    rw [he] at hashed hh
    obtain ⟨m, rfl, hL, hR⟩ := canon_eq_internal ideal seg hashed hh
    have hbound := seg.bound
    rw [show 256 - (m + 1) = 255 - m by omega, show 255 - m + 1 = 256 - m by omega]
    have beside : ∀ {c : ProofTree D} {b : Bool}, c.Leveled depth m →
        Rows H depth key rows node c → c.eval H node = canon H m (side m b es) →
        Beside H rows key (255 - m) b c := by
      intro c b levC rsC heC
      obtain ⟨hs, hid, perm⟩ := exists_hidden ideal (seg.side b) levC rsC heC
      have bit : ∀ e ∈ c.held rows ++ hs, e.1.getMsb (255 - m) = b :=
        fun e h => (mem_side.mp (perm.mem_iff.mp h)).2
      refine ⟨fun pos hp live => ?_, fun n hn hLeaf => ?_, ?_⟩
      · obtain ⟨x, hx⟩ := List.exists_mem_of_ne_nil _ live
        have deep := (levC.depth_le hp).1
        rw [← rsC.path pos hp x hx _ (by omega)]
        exact bit x (List.mem_append_left _ (List.mem_flatMap.mpr ⟨pos, hp, hx⟩))
      · obtain ⟨k, xs, segX, rfl, sub⟩ := hid.of_sibling hn (by rw [hLeaf]; decide)
        obtain ⟨x, rfl⟩ := canon_eq_singleton segX hLeaf
        exact ⟨x.1, x.2, segX.live x (by simp), canon_singleton x,
          bit x (List.mem_append_right _ (sub x (by simp)))⟩
      · rintro n rfl hEmpty
        have same : n = canon H m (side m b es) := heC
        rw [same] at hEmpty ⊢
        rw [canon_eq_nil (seg.side b) hEmpty, canon_nil, HashedNode.empty_hash]
    exact ⟨beside lev.1 rs.left hL, beside lev.2 rs.right hR, ihl (seg.side false) lev.1 rs.left hL,
      ihr (seg.side true) lev.2 rs.right hR⟩

/-- A leaf summary is the leaf of the single entry that rows and siblings hold. -/
theorem entry_of_kind_leaf (lev : t.Leveled depth rem) (rs : Rows H depth key rows node t)
    (hid : Hidden H rem t hs) (hk : (t.eval H node).kind = HashedNode.LEAF) :
    ∃ e, (t.held rows ++ hs).Perm [e] ∧ t.eval H node = HashedNode.leaf H e.1 e.2 := by
  induction hid with
  | empty => cases hk
  | absent hn =>
    rw [eval, hn] at hk
    cases hk
  | leaf =>
    rename_i pos
    have mem : pos ∈ (leaf pos : ProofTree D).positions := by simp [positions]
    rw [Leveled] at lev
    have same := rs.summary pos mem _ lev
    rw [eval, same] at hk
    obtain ⟨e, he⟩ := canon_eq_singleton (rs.segment pos mem _ lev) hk
    refine ⟨e, by simp [held, positions, he], ?_⟩
    rw [eval, same, he, canon_singleton]
  | sibling seg _ =>
    obtain ⟨e, rfl⟩ := canon_eq_singleton seg hk
    exact ⟨e, by simp [held, positions], canon_singleton e⟩
  | both hx hy _ _ ihl ihr =>
    rename_i l r xs ys _ _
    rw [eval] at hk ⊢
    obtain ⟨hl, hr, hc⟩ | ⟨hl, hr, hc⟩ | ⟨_, _, hc⟩ | ⟨hk', _⟩ :=
      HashedNode.combine_cases (H := H) (l.eval H node) (r.eval H node)
    · obtain ⟨e, perm, he⟩ := ihl lev.1 rs.left hl
      refine ⟨e, (held_both_append ..).trans ?_, hc.trans he⟩
      rwa [rs.right.held_eq_nil lev.2 hr, hy.eq_nil (of_kind_empty hr).2, List.append_nil,
        List.append_nil]
    · obtain ⟨e, perm, he⟩ := ihr lev.2 rs.right hr
      refine ⟨e, (held_both_append ..).trans ?_, hc.trans he⟩
      rwa [rs.left.held_eq_nil lev.1 hl, hx.eq_nil (of_kind_empty hl).2, List.nil_append,
        List.nil_append]
    · rw [hc] at hk; cases hk
    · rw [hk'] at hk; cases hk

theorem eval_of_kind_empty (lev : t.Leveled depth rem) (rs : Rows H depth key rows node t)
    (clean : ∀ n, t = .sibling n → n.kind = HashedNode.EMPTY → n.hash = H.emptyHash)
    (hk : (t.eval H node).kind = HashedNode.EMPTY) : t.eval H node = HashedNode.empty H := by
  cases t with
  | empty => rfl
  | leaf pos =>
    have mem : pos ∈ (leaf pos : ProofTree D).positions := by simp [positions]
    rw [Leveled] at lev
    rw [eval, rs.summary pos mem _ lev] at hk ⊢
    rw [canon_eq_nil (rs.segment pos mem _ lev) hk, canon_nil]
  | sibling n => exact HashedNode.ext hk (clean n rfl hk)
  | both l r => exact (HashedNode.combine_kind_empty hk).2.2

theorem Hidden.live_held (hid : Hidden H rem t hs) (lev : t.Leveled depth rem)
    (rs : Rows H depth key rows node t) : ∀ e ∈ t.held rows ++ hs, e.2 ≠ H.emptyHash := by
  intro e he
  rcases List.mem_append.mp he with he | he
  · obtain ⟨pos, hp, he⟩ := List.mem_flatMap.mp he
    have := (lev.depth_le hp).2
    exact (rs.segment pos hp (256 - depth pos) (by omega)).live e he
  · exact hid.live e he

/-- On a side nothing but entries of that side are held or hidden. -/
theorem Beside.bit {level : Nat} {b : Bool} (beside : Beside H rows key level b t) (ideal : H.Ideal)
    (lev : t.Leveled depth rem) (deep : level < 256 - rem) (rs : Rows H depth key rows node t)
    (hid : Hidden H rem t hs) (ofDeep : t.Deep → ∀ e ∈ hs, e.1.getMsb level = b) :
    ∀ e ∈ t.held rows ++ hs, e.1.getMsb level = b := by
  intro e he
  rcases List.mem_append.mp he with he | he
  · obtain ⟨pos, hp, he⟩ := List.mem_flatMap.mp he
    have := (lev.depth_le hp).1
    rw [rs.path pos hp e he level (by omega)]
    exact beside.placed pos hp (List.ne_nil_of_mem he)
  · by_cases hd : t.Deep
    · exact ofDeep hd e he
    · have live := hid.live e he
      obtain ⟨k, v, hv, hn, bit⟩ := beside.leaves _ (hid.leaf_mem_siblings hd he)
        (HashedNode.leaf_kind_of_ne live)
      rw [(HashedNode.leaf_injective ideal live hv hn).1, bit]

/-- A tree that stands on its sides summarises what its rows and siblings hold. -/
theorem eval_of_sided (ideal : H.Ideal) (bound : rem ≤ 256) (lev : t.Leveled depth rem)
    (rs : Rows H depth key rows node t) (hid : Hidden H rem t hs)
    (sided : t.Sided H rows key (256 - rem))
    (clean : ∀ n, t = .sibling n → n.kind = HashedNode.EMPTY → n.hash = H.emptyHash) :
    t.eval H node = canon H rem (t.held rows ++ hs) := by
  induction hid with
  | empty => simp [held, positions, eval]
  | absent hn =>
    rw [eval_of_kind_empty lev rs clean hn]
    simp [held, positions]
  | leaf =>
    rename_i pos
    rw [Leveled] at lev
    rw [eval, rs.summary pos (by simp [positions]) _ lev]
    simp [held, positions]
  | sibling => simp [held, positions, eval]
  | both hx hy deepL deepR ihl ihr =>
    rename_i m l r xs ys
    have promoted : ((both l r).eval H node).kind = HashedNode.LEAF →
        (both l r).eval H node = canon H (m + 1) ((both l r).held rows ++ (xs ++ ys)) := by
      intro hLeaf
      obtain ⟨e, perm, he⟩ := entry_of_kind_leaf lev rs (.both hx hy deepL deepR) hLeaf
      rw [he, canon_perm perm, canon_singleton]
    obtain ⟨hl, _, hc⟩ | ⟨_, hr, hc⟩ | ⟨hl, hr, hc⟩ | ⟨hi, _⟩ :=
      HashedNode.combine_cases (H := H) (l.eval H node) (r.eval H node)
    · exact promoted ((congrArg HashedNode.kind hc).trans hl)
    · exact promoted ((congrArg HashedNode.kind hc).trans hr)
    · have none := rs.held_eq_nil lev (congrArg HashedNode.kind hc)
      rw [eval, hc, none, hx.eq_nil (of_kind_empty hl).2, hy.eq_nil (of_kind_empty hr).2]
      simp
    -- the node is hashed: both children are canonical on their own side
    rw [show 256 - (m + 1) = 255 - m by omega] at sided
    obtain ⟨besideL, besideR, sidedL, sidedR⟩ := sided ((eval_kind rs lev).symm.trans hi)
    rw [show 255 - m + 1 = 256 - m by omega] at sidedL sidedR
    have bitL := besideL.bit ideal lev.1 (by omega) rs.left hx deepL
    have bitR := besideR.bit ideal lev.2 (by omega) rs.right hy deepR
    have live : ∀ e ∈ (l.held rows ++ xs) ++ (r.held rows ++ ys), e.2 ≠ H.emptyHash := fun e he =>
      (List.mem_append.mp he).elim (hx.live_held lev.1 rs.left e) (hy.live_held lev.2 rs.right e)
    have left : side m false ((l.held rows ++ xs) ++ (r.held rows ++ ys)) = l.held rows ++ xs := by
      rw [side, List.filter_append, List.filter_eq_self.mpr fun e he => by simp [bitL e he],
        List.filter_eq_nil_iff.mpr fun e he => by simp [bitR e he], List.append_nil]
    have right : side m true ((l.held rows ++ xs) ++ (r.held rows ++ ys)) = r.held rows ++ ys := by
      rw [side, List.filter_append, List.filter_eq_nil_iff.mpr fun e he => by simp [bitL e he],
        List.filter_eq_self.mpr fun e he => by simp [bitR e he], List.nil_append]
    rw [canon_perm (held_both_append ..), canon_succ live, left, right, eval,
      ihl (by omega) lev.1 rs.left sidedL besideL.clean,
      ihr (by omega) lev.2 rs.right sidedR besideR.clean]

/-! ### Leaf rows -/

section Reading

variable {val : Nat → D}

/-- The pre-state summaries of the leaf rows. -/
def leafNode (H : Hasher D) (key : Nat → Key) (val : Nat → D) (pos : Nat) : HashedNode D :=
  HashedNode.leaf H (key pos) (val pos)

/-- The entries a leaf row stands for. -/
def row (H : Hasher D) (key : Nat → Key) (val : Nat → D) (pos : Nat) : List (Key × D) :=
  if val pos = H.emptyHash then [] else [(key pos, val pos)]

theorem mem_row {pos : Nat} {e : Key × D} :
    e ∈ row H key val pos ↔ e = (key pos, val pos) ∧ val pos ≠ H.emptyHash := by
  unfold row
  split <;> simp [*]

theorem row_eq_nil {pos : Nat} : row H key val pos = [] ↔ val pos = H.emptyHash := by
  unfold row
  split <;> simp [*]

theorem rows_row (depth : Nat → Nat) (t : ProofTree D) :
    Rows H depth key (row H key val) (leafNode H key val) t := by
  refine ⟨fun pos hp rem hr => ?_, fun pos hp rem hr => ?_, fun pos hp e he i _ => ?_⟩
  · refine ⟨by omega, fun e he => ?_, by unfold row; split <;> simp, fun e he e' he' i _ => ?_⟩
    · rw [(mem_row.mp he).1]
      exact (mem_row.mp he).2
    · rw [(mem_row.mp he).1, (mem_row.mp he').1]
  · by_cases dead : val pos = H.emptyHash <;> simp [row, leafNode, dead]
  · rw [(mem_row.mp he).1]

end Reading
end Vprogs.Smt.ProofTree
