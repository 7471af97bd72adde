import Vprogs.Smt.ProofBuilder
import Vprogs.Smt.UpdaterCanonical

/-!
What the builder collects. The walk of a tree that stores some entries along
some keys is a plan: a tree of rows, siblings and branches computed from the
entries alone. The builder's tables are the plan written out from left to right.
-/
namespace Vprogs.Smt

/-- A witness leaf before its key is interned, with the input keys it answers. -/
structure Row (D : Type) where
  depth : Nat
  key : Key
  value : D
  inputs : List Key

inductive Plan (D : Type) where
  | leaf (row : Row D)
  | split (left right : Plan D)
  | beside (sibling : HashedNode D) (goesLeft : Bool) (child : Plan D)

namespace Plan

variable {D : Type}

def rows : Plan D → List (Row D)
  | .leaf row => [row]
  | .split l r => rows l ++ rows r
  | .beside _ _ child => rows child

def siblings : Plan D → List (HashedNode D)
  | .leaf _ => []
  | .split l r => siblings l ++ siblings r
  | .beside n _ child => n :: siblings child

def bits : Plan D → List Bool
  | .leaf _ => []
  | .split l r => true :: (bits l ++ bits r)
  | .beside _ _ child => false :: bits child

def inputs (rows : List (Row D)) : List Key := rows.flatMap Row.inputs

end Plan

section Keys

/-- The keys that branch to `b` with `rem` levels below the branch. -/
def keySide (rem : Nat) (b : Bool) (ks : List Key) : List Key :=
  ks.filter fun k => k.getMsb (255 - rem) == b

@[simp] theorem mem_keySide {rem : Nat} {b : Bool} {ks : List Key} {k : Key} :
    k ∈ keySide rem b ks ↔ k ∈ ks ∧ k.getMsb (255 - rem) = b := by
  simp [keySide]

theorem split_eq_keySides {level rem : Nat} {ks : List Key} (hlevel : level + (rem + 1) = 256)
    (sorted : ks.Pairwise (· < ·)) (aligned : Updater.Aligned level ks) :
    slicePartitionPoint (fun k : Key => !k.getMsb level) ks = (keySide rem false ks).length ∧
      ks.take (slicePartitionPoint (fun k : Key => !k.getMsb level) ks) = keySide rem false ks ∧
      ks.drop (slicePartitionPoint (fun k : Key => !k.getMsb level) ks) = keySide rem true ks := by
  have hbit : 255 - rem = level := by omega
  have mono : ks.Pairwise fun a b => (!b.getMsb level) = true → (!a.getMsb level) = true := by
    refine sorted.imp_of_mem fun {a b} ha hb hlt hright => ?_
    by_contra hleft
    have := Key.getMsb_mono_of_prefix (by omega) (aligned a ha b hb) hlt (by simpa using hleft)
    simp [this] at hright
  have ⟨hmid, htake, hdrop⟩ := slicePartitionPoint_split mono
  have hleft : ks.filter (fun k => !k.getMsb level) = keySide rem false ks := by
    unfold keySide
    rw [hbit]
    exact List.filter_congr fun k _ => by cases k.getMsb level <;> rfl
  have hright : ks.filter (fun k => !!k.getMsb level) = keySide rem true ks := by
    unfold keySide
    rw [hbit]
    exact List.filter_congr fun k _ => by cases k.getMsb level <;> rfl
  rw [htake, hdrop, hmid, hleft, hright]
  exact ⟨rfl, rfl, rfl⟩

end Keys

section

variable {D : Type} (H : Hasher D)

/-- The leaf that answers all keys of a subtree, if one does. -/
def answer (ks : List Key) (es : List (Key × D)) : Option (Key × D) :=
  match ks, es with
  | _, [e] => some e
  | [k], [] => some (k, H.emptyHash)
  | _, _ => none

/-- Sorted keys asked of a subtree with `rem` levels that stores `es`. -/
structure Asked (rem : Nat) (ks : List Key) (es : List (Key × D)) : Prop where
  nonempty : ks ≠ []
  sorted : ks.Pairwise (· < ·)
  seg : Segment H rem es
  aligned : Updater.Aligned (256 - rem) (ks ++ es.map Prod.fst)

variable {H} {rem : Nat} {ks : List Key} {es : List (Key × D)}

theorem keySide_of_other {b : Bool} (h : keySide rem (!b) ks = []) : keySide rem b ks = ks := by
  rw [keySide, List.filter_eq_nil_iff] at h
  rw [keySide, List.filter_eq_self]
  intro k hk
  have := h k hk
  cases b <;> cases hb : k.getMsb (255 - rem) <;> simp_all

/-- Keys of one side of a subtree branch to that side. -/
theorem mem_sides {b : Bool} {k : Key} (hk : k ∈ keySide rem b ks ++ (side rem b es).map Prod.fst) :
    k ∈ ks ++ es.map Prod.fst ∧ k.getMsb (255 - rem) = b := by
  match List.mem_append.mp hk with
  | .inl hk => exact ⟨List.mem_append_left _ (mem_keySide.mp hk).1, (mem_keySide.mp hk).2⟩
  | .inr hk =>
    have ⟨e, he, hek⟩ := List.mem_map.mp hk
    rw [mem_side] at he
    exact hek ▸ ⟨List.mem_append_right _ (List.mem_map_of_mem he.1), he.2⟩

namespace Asked

/-- The partition point cuts the keys into the two sides. -/
theorem split {level : Nat} (asked : Asked H (rem + 1) ks es) (hlevel : level + (rem + 1) = 256) :
    slicePartitionPoint (fun k : Key => !k.getMsb level) ks = (keySide rem false ks).length ∧
      ks.take (slicePartitionPoint (fun k : Key => !k.getMsb level) ks) = keySide rem false ks ∧
      ks.drop (slicePartitionPoint (fun k : Key => !k.getMsb level) ks) = keySide rem true ks := by
  refine split_eq_keySides hlevel asked.sorted ?_
  rw [show level = 256 - (rem + 1) by omega]
  exact asked.aligned.of_subset fun k hk => List.mem_append_left _ hk

theorem keySides (asked : Asked H (rem + 1) ks es) : keySide rem false ks ++ keySide rem true ks = ks := by
  have hbound := asked.seg.bound
  have ⟨_, htake, hdrop⟩ := asked.split (show 256 - (rem + 1) + (rem + 1) = 256 by omega)
  rw [← htake, ← hdrop, List.take_append_drop]

theorem side {b : Bool} (asked : Asked H (rem + 1) ks es) (h : keySide rem b ks ≠ []) :
    Asked H rem (keySide rem b ks) (Smt.side rem b es) where
  nonempty := h
  sorted := asked.sorted.sublist List.filter_sublist
  seg := asked.seg.side b
  aligned := by
    have hbound := asked.seg.bound
    have keys := fun k (hk : k ∈ keySide rem b ks ++ (Smt.side rem b es).map Prod.fst) =>
      mem_sides hk
    intro k hk k' hk' i hi
    by_cases hlt : i < 256 - (rem + 1)
    · exact asked.aligned k (keys k hk).1 k' (keys k' hk').1 i hlt
    · rw [show i = 255 - rem by omega, (keys k hk).2, (keys k' hk').2]

/-- With no level left, one leaf answers. -/
theorem answer_zero (asked : Asked H 0 ks es) : ∃ a, answer H ks es = some a := by
  match ks, es, asked with
  | [], _, asked => exact absurd rfl asked.nonempty
  | _, [e], _ => exact ⟨e, by simp [answer]⟩
  | [k], [], _ => exact ⟨_, rfl⟩
  | _, _ :: _ :: _, asked => exact absurd asked.seg.length_le_one (by simp)
  | k :: k' :: ks, [], asked =>
    -- two keys that agree on all bits are equal
    have same : k = k' := Key.ext_getMsb fun i hi =>
      asked.aligned k (by simp) k' (by simp) i hi
    have hlt := (List.pairwise_cons.mp asked.sorted).1 k' (by simp)
    exact absurd same (BitVec.ne_of_lt hlt)

end Asked

variable [DecidableEq D] (H)

/-- What the builder collects for sorted keys `ks` in a subtree with `rem` levels
that stores `es`. -/
def plan : Nat → List Key → List (Key × D) → Plan D
  | 0, ks, es =>
    -- one key and at most one entry are left, so the default is never taken
    let a := (answer H ks es).getD (0, H.emptyHash)
    .leaf ⟨256, a.1, a.2, ks⟩
  | rem + 1, ks, es =>
    match answer H ks es with
    | some a => .leaf ⟨255 - rem, a.1, a.2, ks⟩
    | none =>
      if keySide rem true ks = [] then
        .beside (canon H rem (side rem true es)) true (plan rem ks (side rem false es))
      else if keySide rem false ks = [] then
        .beside (canon H rem (side rem false es)) false (plan rem ks (side rem true es))
      else .split (plan rem (keySide rem false ks) (side rem false es))
        (plan rem (keySide rem true ks) (side rem true es))

variable {H}

/-- Everything a plan can be, as an induction rule. -/
theorem plan_induct {P : Nat → List Key → List (Key × D) → Plan D → Prop}
    (hleaf : ∀ {rem ks es a}, Asked H rem ks es → answer H ks es = some a →
      P rem ks es (.leaf ⟨256 - rem, a.1, a.2, ks⟩))
    (hbeside : ∀ {rem ks es b}, Asked H (rem + 1) ks es → answer H ks es = none →
      keySide rem b ks = ks →
      keySide rem (!b) ks = [] → P rem ks (side rem b es) (plan H rem ks (side rem b es)) →
      P (rem + 1) ks es
        (.beside (canon H rem (side rem (!b) es)) (!b) (plan H rem ks (side rem b es))))
    (hsplit : ∀ {rem ks es}, Asked H (rem + 1) ks es → answer H ks es = none →
      (∀ b, keySide rem b ks ≠ []) →
      (∀ b, P rem (keySide rem b ks) (side rem b es) (plan H rem (keySide rem b ks) (side rem b es))) →
      P (rem + 1) ks es (.split (plan H rem (keySide rem false ks) (side rem false es))
        (plan H rem (keySide rem true ks) (side rem true es))))
    (asked : Asked H rem ks es) : P rem ks es (plan H rem ks es) := by
  induction rem generalizing ks es with
  | zero =>
    have ⟨a, ha⟩ := asked.answer_zero
    unfold plan
    rw [ha]
    exact hleaf asked ha
  | succ rem ih =>
    unfold plan
    match ha : answer H ks es with
    | some a =>
      have := hleaf asked ha
      rwa [show 256 - (rem + 1) = 255 - rem by omega] at this
    | none =>
      dsimp only
      split
      · next hright =>
        have hself : keySide rem false ks = ks := keySide_of_other hright
        have asked' := asked.side (b := false) (by rw [hself]; exact asked.nonempty)
        rw [hself] at asked'
        exact hbeside asked ha hself hright (ih asked')
      · next hright =>
        split
        · next hleft =>
          have hself : keySide rem true ks = ks := keySide_of_other hleft
          have asked' := asked.side (b := true) (by rw [hself]; exact asked.nonempty)
          rw [hself] at asked'
          exact hbeside (b := true) asked ha hself hleft (ih asked')
        · next hleft =>
          have both : ∀ b, keySide rem b ks ≠ [] := by
            intro b
            cases b with
            | false => exact hleft
            | true => exact hright
          exact hsplit asked ha both fun b => ih (asked.side (both b))

omit [DecidableEq D] in
theorem answer_eq_some {a : Key × D} :
    answer H ks es = some a ↔ es = [a] ∨ es = [] ∧ ks = [a.1] ∧ a.2 = H.emptyHash := by
  match ks, es with
  | _, [e] => simp [answer]
  | [k], [] =>
    simp only [answer, Option.some.injEq, List.nil_eq, reduceCtorEq, List.cons.injEq, and_true,
      true_and, false_or]
    exact ⟨fun h => h ▸ ⟨rfl, rfl⟩, fun h => Prod.ext h.1 h.2.symm⟩
  | [], [] | _ :: _ :: _, [] => simp [answer]
  | [], _ :: _ :: _ | [_], _ :: _ :: _ | _ :: _ :: _, _ :: _ :: _ => simp [answer]

/-- The rows of a plan answer the keys in order. -/
theorem inputs_plan (asked : Asked H rem ks es) : Plan.inputs (plan H rem ks es).rows = ks := by
  refine plan_induct (P := fun _ ks _ pl => Plan.inputs pl.rows = ks) ?_ ?_ ?_ asked
  · intro rem ks es a _ _
    simp [Plan.rows, Plan.inputs]
  · intro rem ks es b _ _ _ _ ih
    exact ih
  · intro rem ks es asked _ _ ih
    have := asked.keySides
    rw [← ih false, ← ih true] at this
    simpa [Plan.rows, Plan.inputs] using this

/-- A row answers a key with the entry on its path: the row's own if the keys
agree, none otherwise. -/
def Row.Answers (H : Hasher D) (row : Row D) (k : Key) (es : List (Key × D)) : Prop :=
  row.depth ≤ 256 ∧ (∀ i < row.depth, k.getMsb i = row.key.getMsb i) ∧
    ∀ v, (k, v) ∈ es ↔ (row.key = k ∧ row.value = v) ∧ v ≠ H.emptyHash

theorem answers_plan (asked : Asked H rem ks es) :
    ∀ row ∈ (plan H rem ks es).rows, ∀ k ∈ row.inputs, k ∈ ks ∧ row.Answers H k es := by
  have onSide : ∀ {rem b} {row : Row D} {k : Key} {ks : List Key} {es : List (Key × D)},
      k ∈ keySide rem b ks ∧ row.Answers H k (side rem b es) → k ∈ ks ∧ row.Answers H k es := by
    intro rem b row k ks es ⟨hk, hd, hp, hv⟩
    rw [mem_keySide] at hk
    refine ⟨hk.1, hd, hp, fun v => ?_⟩
    rw [← hv v, mem_side]
    exact ⟨fun h => ⟨h, hk.2⟩, fun h => h.1⟩
  refine plan_induct
    (P := fun _ ks es pl => ∀ row ∈ pl.rows, ∀ k ∈ row.inputs, k ∈ ks ∧ row.Answers H k es)
    ?_ ?_ ?_ asked
  · intro rem ks es a asked ha row hrow k hk
    rw [Plan.rows, List.mem_singleton] at hrow
    subst hrow
    refine ⟨hk, Nat.sub_le _ _, ?_, fun v => ?_⟩
    · match answer_eq_some.mp ha with
      | .inl hes =>
        subst hes
        exact asked.aligned k (List.mem_append_left _ hk) a.1 (by simp)
      | .inr ⟨_, hks, _⟩ =>
        rw [show k = a.1 by simpa [hks] using hk]
        exact fun _ _ => rfl
    · match answer_eq_some.mp ha with
      | .inl hes =>
        subst hes
        rw [List.mem_singleton]
        exact ⟨fun h => h ▸ ⟨⟨rfl, rfl⟩, asked.seg.live (k, v) (by simp [h])⟩,
          fun h => Prod.ext h.1.1.symm h.1.2.symm⟩
      | .inr ⟨hes, _, hdead⟩ =>
        rw [hes]
        exact ⟨fun h => (nomatch h), fun h => absurd (h.1.2.symm.trans hdead) h.2⟩
  · intro rem ks es b asked _ hself hother ih row hrow k hk
    have h := ih row hrow k hk
    rw [← hself] at h
    exact onSide h
  · intro rem ks es asked _ _ ih row hrow k hk
    match List.mem_append.mp hrow with
    | .inl hrow => exact onSide (ih false row hrow k hk)
    | .inr hrow => exact onSide (ih true row hrow k hk)

/-- A plan has the form the verifier's walk expects below `256 - rem` levels: rows
at their depth, and every branch following the keys of its rows. -/
def Plan.Fits : Nat → Plan D → Prop
  | rem, .leaf row => row.depth = 256 - rem ∧ rem ≤ 256
  | rem + 1, .split l r =>
    l.Fits rem ∧ r.Fits rem ∧ (∀ row ∈ l.rows, row.key.getMsb (255 - rem) = false) ∧
      ∀ row ∈ r.rows, row.key.getMsb (255 - rem) = true
  | rem + 1, .beside _ goesLeft child =>
    child.Fits rem ∧ ∀ row ∈ child.rows, row.key.getMsb (255 - rem) = !goesLeft
  | 0, .split _ _ | 0, .beside _ _ _ => False

theorem fits_plan (asked : Asked H rem ks es) : (plan H rem ks es).Fits rem := by
  suffices (plan H rem ks es).Fits rem ∧ ∀ row ∈ (plan H rem ks es).rows,
      row.key ∈ ks ++ es.map Prod.fst from this.1
  refine plan_induct (P := fun rem ks es pl => pl.Fits rem ∧ ∀ row ∈ pl.rows,
    row.key ∈ ks ++ es.map Prod.fst) ?_ ?_ ?_ asked
  · intro rem ks es a asked ha
    refine ⟨by unfold Plan.Fits; exact ⟨rfl, asked.seg.bound⟩, fun row hrow => ?_⟩
    rw [Plan.rows, List.mem_singleton] at hrow
    subst hrow
    match answer_eq_some.mp ha with
    | .inl hes => simp [hes]
    | .inr ⟨_, hks, _⟩ => simp [hks]
  · intro rem ks es b asked _ hself hother ⟨fits, keys⟩
    have keys' : ∀ row ∈ (plan H rem ks (side rem b es)).rows,
        row.key ∈ keySide rem b ks ++ (side rem b es).map Prod.fst := by
      rw [hself]
      exact keys
    refine ⟨⟨fits, fun row hrow => ?_⟩, fun row hrow => (mem_sides (keys' row hrow)).1⟩
    rw [Bool.not_not]
    exact (mem_sides (keys' row hrow)).2
  · intro rem ks es asked _ _ ih
    refine ⟨⟨(ih false).1, (ih true).1, fun row hrow => (mem_sides ((ih false).2 row hrow)).2,
      fun row hrow => (mem_sides ((ih true).2 row hrow)).2⟩, fun row hrow => ?_⟩
    match List.mem_append.mp hrow with
    | .inl hrow => exact (mem_sides ((ih false).2 row hrow)).1
    | .inr hrow => exact (mem_sides ((ih true).2 row hrow)).1

/-- The summary of a plan, given the summaries of its rows. -/
def Plan.value (H : Hasher D) (f : Row D → HashedNode D) : Plan D → HashedNode D
  | .leaf row => f row
  | .split l r => HashedNode.combine H (l.value H f) (r.value H f)
  | .beside n goesLeft child => combineWithSibling H (child.value H f) n goesLeft

omit [DecidableEq D] in
theorem Plan.value_congr {f g : Row D → HashedNode D} {pl : Plan D}
    (h : ∀ row ∈ pl.rows, f row = g row) : pl.value H f = pl.value H g := by
  induction pl with
  | leaf row => exact h row (by simp [rows])
  | split l r ihl ihr =>
    rw [value, value, ihl fun row hr => h row (List.mem_append_left _ hr),
      ihr fun row hr => h row (List.mem_append_right _ hr)]
  | beside n g child ih => rw [value, value, ih h]

namespace Row

/-- The entries a row stands for. -/
def entries (H : Hasher D) (row : Row D) : List (Key × D) :=
  if row.value = H.emptyHash then [] else [(row.key, row.value)]

omit [DecidableEq D] in
/-- The writes to the keys a row answers. -/
def updates (us : List (Key × D)) (row : Row D) : List (Key × D) :=
  us.filter fun u => decide (u.1 ∈ row.inputs)

/-- The summary of a row after the writes. -/
def post (H : Hasher D) (us : List (Key × D)) (row : Row D) : HashedNode D :=
  canon H (256 - row.depth) (applyUpdates H (row.updates us) (row.entries H))

end Row

/-- Replacing every row by its entries after the writes replaces the whole by the
canonical summary after the writes. -/
theorem value_plan (asked : Asked H rem ks es) (us : List (Key × D)) (hus : ∀ u ∈ us, u.1 ∈ ks) :
    (plan H rem ks es).value H (Row.post H us) = canon H rem (applyUpdates H us es) := by
  revert us
  refine plan_induct (P := fun rem ks es pl => ∀ us : List (Key × D), (∀ u ∈ us, u.1 ∈ ks) →
    pl.value H (Row.post H us) = canon H rem (applyUpdates H us es))
    ?_ ?_ ?_ asked
  · intro rem ks es a asked ha us hus
    have hupd : (⟨256 - rem, a.1, a.2, ks⟩ : Row D).updates us = us :=
      List.filter_eq_self.mpr fun u hu => by simpa using hus u hu
    have hent : (⟨256 - rem, a.1, a.2, ks⟩ : Row D).entries H = es := by
      match answer_eq_some.mp ha with
      | .inl hes =>
        have live := asked.seg.live a (by simp [hes])
        simp [Row.entries, live, hes]
      | .inr ⟨hes, _, hdead⟩ => simp [Row.entries, hdead, hes]
    have hbound := asked.seg.bound
    rw [Plan.value, Row.post, hupd, hent, show 256 - (256 - rem) = rem by omega]
  · intro rem ks es b asked _ hself hother ih us hus
    have bit : ∀ u ∈ us, u.1.getMsb (255 - rem) = b := fun u hu =>
      (mem_keySide.mp (hself ▸ hus u hu)).2
    have here : side rem b us = us := List.filter_eq_self.mpr fun u hu => by simpa using bit u hu
    have other : side rem (!b) us = [] := List.filter_eq_nil_iff.mpr fun u hu => by simp [bit u hu]
    have hchild := ih us hus
    have hsib : canon H rem (side rem (!b) es) =
        canon H rem (side rem (!b) (applyUpdates H us es)) := by
      rw [side_applyUpdates, other, applyUpdates_nil]
    rw [← here, ← side_applyUpdates, here] at hchild
    rw [Plan.value, hchild, hsib, canon_succ (live_applyUpdates asked.seg.live)]
    cases b <;> rfl
  · intro rem ks es asked _ both ih us hus
    have value : ∀ b, (plan H rem (keySide rem b ks) (side rem b es)).value H (Row.post H us) =
        canon H rem (side rem b (applyUpdates H us es)) := by
      intro b
      have hsub : ∀ u ∈ side rem b us, u.1 ∈ keySide rem b ks := fun u hu =>
        mem_keySide.mpr ⟨hus u (mem_side.mp hu).1, (mem_side.mp hu).2⟩
      rw [side_applyUpdates, ← ih b (side rem b us) hsub]
      refine Plan.value_congr fun row hrow => ?_
      -- a row of one side only answers keys of that side
      have hupd : row.updates us = row.updates (side rem b us) := by
        unfold Row.updates side
        rw [List.filter_filter]
        refine List.filter_congr fun u _ => ?_
        by_cases hu : u.1 ∈ row.inputs
        · have hk := (answers_plan (asked.side (both b)) row hrow u.1 hu).1
          simp [hu, (mem_keySide.mp hk).2]
        · simp [hu]
      rw [Row.post, Row.post, hupd]
    rw [Plan.value, value false, value true, canon_succ (live_applyUpdates asked.seg.live)]

/-- Without writes the plan summarises the stored entries. -/
theorem value_plan_leaf (asked : Asked H rem ks es) :
    (plan H rem ks es).value H (fun row => HashedNode.leaf H row.key row.value) =
      canon H rem es := by
  have h := value_plan asked [] (by simp)
  rw [applyUpdates_nil] at h
  rw [← h]
  refine Plan.value_congr fun row _ => ?_
  rw [Row.post, Row.updates, List.filter_nil, applyUpdates_nil, Row.entries]
  by_cases dead : row.value = H.emptyHash <;> simp [dead]

end

end Vprogs.Smt
