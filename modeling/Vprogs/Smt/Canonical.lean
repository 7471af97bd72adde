import Vprogs.Smt.HashedNode

/-!
The canonical shortcut tree of a finite key-value map, stated on the map's
entries. `canon rem es` is the summary of the subtree with `rem` levels below
it that holds exactly `es`: nothing, one leaf lifted to this level, or the two
halves combined. Every stored or proven tree is compared with this one.
-/
namespace Vprogs.Smt

variable {D : Type}

/-- Entries on the side `b` of a node with `rem + 1` levels below it. -/
def side (rem : Nat) (b : Bool) (es : List (Key × D)) : List (Key × D) :=
  es.filter fun e => e.1.getMsb (255 - rem) == b

/-- Summary of the subtree with `rem` levels below it holding `es`. -/
def canon [DecidableEq D] (H : Hasher D) : Nat → List (Key × D) → HashedNode D
  | _, [] => HashedNode.empty H
  | _, [e] => HashedNode.leaf H e.1 e.2
  -- two distinct keys cannot agree on every bit
  | 0, _ :: _ :: _ => HashedNode.empty H
  | rem + 1, es@(_ :: _ :: _) =>
    HashedNode.combine H (canon H rem (side rem false es)) (canon H rem (side rem true es))

/-- What the entries below one position of the tree look like: live values,
distinct keys, one common prefix down to that position. -/
structure Segment (H : Hasher D) (rem : Nat) (es : List (Key × D)) : Prop where
  bound : rem ≤ 256
  live : ∀ e ∈ es, e.2 ≠ H.emptyHash
  nodup : (es.map Prod.fst).Nodup
  agree : ∀ e ∈ es, ∀ e' ∈ es, ∀ i < 256 - rem, e.1.getMsb i = e'.1.getMsb i

@[simp] theorem mem_side {rem : Nat} {b : Bool} {es : List (Key × D)} {e : Key × D} :
    e ∈ side rem b es ↔ e ∈ es ∧ e.1.getMsb (255 - rem) = b := by
  simp [side]

@[simp] theorem side_nil (rem : Nat) (b : Bool) : side rem b ([] : List (Key × D)) = [] := rfl

theorem side_singleton_same {rem : Nat} {b : Bool} {e : Key × D}
    (h : e.1.getMsb (255 - rem) = b) : side rem b [e] = [e] := by
  simp [side, h]

theorem side_singleton_other {rem : Nat} {b : Bool} {e : Key × D}
    (h : e.1.getMsb (255 - rem) = !b) : side rem b [e] = [] := by
  simp [side, h]

theorem length_side_add (rem : Nat) (es : List (Key × D)) :
    (side rem false es).length + (side rem true es).length = es.length := by
  induction es with
  | nil => rfl
  | cons e rest ih =>
    cases hb : e.1.getMsb (255 - rem) <;> simp [side, hb] at ih ⊢ <;> omega

namespace Segment

variable {H : Hasher D} {rem : Nat} {es : List (Key × D)}

theorem nil (h : rem ≤ 256) : Segment H rem ([] : List (Key × D)) :=
  ⟨h, by simp, by simp, by simp⟩

/-- A side of a segment is a segment one level further down. -/
theorem side (b : Bool) (h : Segment H (rem + 1) es) : Segment H rem (Smt.side rem b es) where
  bound := by have := h.bound; omega
  live e he := h.live e (mem_side.mp he).1
  nodup := h.nodup.sublist (List.filter_sublist.map _)
  agree e he e' he' i hi := by
    rw [mem_side] at he he'
    have := h.bound
    obtain hlt | heq : i < 256 - (rem + 1) ∨ i = 255 - rem := by omega
    · exact h.agree e he.1 e' he'.1 i hlt
    · rw [heq, he.2, he'.2]

theorem perm {es' : List (Key × D)} (h : Segment H rem es) (hp : es.Perm es') :
    Segment H rem es' where
  bound := h.bound
  live e he := h.live e (hp.mem_iff.mpr he)
  nodup := (hp.map Prod.fst).nodup_iff.mp h.nodup
  agree e he e' he' := h.agree e (hp.mem_iff.mpr he) e' (hp.mem_iff.mpr he')

/-- At the bottom of the tree a segment holds at most one entry. -/
theorem length_le_one (h : Segment H 0 es) : es.length ≤ 1 := by
  match es, h with
  | [], _ | [_], _ => simp
  | e :: e' :: rest, h =>
    have same : e.1 = e'.1 :=
      Key.ext_getMsb fun i hi => h.agree e (by simp) e' (by simp) i (by omega)
    have := h.nodup
    simp [same] at this

end Segment

section Canon

variable [DecidableEq D] {H : Hasher D} {rem : Nat} {es : List (Key × D)}

@[simp] theorem canon_nil : canon H rem ([] : List (Key × D)) = HashedNode.empty H := by
  cases rem <;> rfl

@[simp] theorem canon_singleton (e : Key × D) : canon H rem [e] = HashedNode.leaf H e.1 e.2 := by
  cases rem <;> rfl

/-- A node is the combination of its two sides, promotion included. -/
theorem canon_succ (live : ∀ e ∈ es, e.2 ≠ H.emptyHash) :
    canon H (rem + 1) es =
      HashedNode.combine H (canon H rem (side rem false es)) (canon H rem (side rem true es)) := by
  match es, live with
  | [], _ => simp
  | [e], live =>
    have live : (HashedNode.leaf H e.1 e.2).kind = HashedNode.LEAF :=
      HashedNode.leaf_kind_of_ne (live e (by simp))
    cases hb : e.1.getMsb (255 - rem) with
    | false =>
      rw [side_singleton_same hb, side_singleton_other (b := true) (by simp [hb])]
      simp [HashedNode.combine_empty_right live]
    | true =>
      rw [side_singleton_same hb, side_singleton_other (b := false) (by simp [hb])]
      simp [HashedNode.combine_empty_left live]
  | _ :: _ :: _, _ => rfl

/-- The kind of a canonical node tells how many entries it holds. -/
theorem canon_kind (h : Segment H rem es) :
    (es = [] ∧ (canon H rem es).kind = HashedNode.EMPTY) ∨
    ((∃ e, es = [e]) ∧ (canon H rem es).kind = HashedNode.LEAF) ∨
    (2 ≤ es.length ∧ (canon H rem es).kind = HashedNode.INTERNAL) := by
  induction rem generalizing es with
  | zero =>
    match es, h with
    | [], _ => exact .inl ⟨rfl, rfl⟩
    | [e], h =>
      exact .inr (.inl ⟨⟨e, rfl⟩, HashedNode.leaf_kind_of_ne (h.live e (by simp))⟩)
    | _ :: _ :: _, h => exact absurd h.length_le_one (by simp)
  | succ rem ih =>
    match es, h with
    | [], _ => exact .inl ⟨rfl, rfl⟩
    | [e], h =>
      exact .inr (.inl ⟨⟨e, rfl⟩, HashedNode.leaf_kind_of_ne (h.live e (by simp))⟩)
    | e :: e' :: rest, h =>
      refine .inr (.inr ⟨by simp, ?_⟩)
      generalize hes : e :: e' :: rest = es at h
      have two : 2 ≤ es.length := by simp [← hes]
      have total := length_side_add rem es
      have none : ∀ b, (canon H rem (side rem b es)).kind = HashedNode.EMPTY →
          (side rem b es).length = 0 := by
        intro b hk
        obtain ⟨he, _⟩ | ⟨_, k⟩ | ⟨_, k⟩ := ih (h.side b)
        · simp [he]
        all_goals rw [k] at hk; cases hk
      have one : ∀ b, (canon H rem (side rem b es)).kind = HashedNode.LEAF →
          (side rem b es).length = 1 := by
        intro b hk
        obtain ⟨_, k⟩ | ⟨⟨e, he⟩, _⟩ | ⟨_, k⟩ := ih (h.side b)
        · rw [k] at hk; cases hk
        · simp [he]
        · rw [k] at hk; cases hk
      -- promotion would leave at most one entry on the two sides together
      rw [canon_succ h.live]
      obtain ⟨hl, hr, -⟩ | ⟨hl, hr, -⟩ | ⟨hl, hr, -⟩ | ⟨hk, -⟩ :=
        HashedNode.combine_cases (H := H) (canon H rem (side rem false es))
          (canon H rem (side rem true es))
      · have := one _ hl; have := none _ hr; omega
      · have := none _ hl; have := one _ hr; omega
      · have := none _ hl; have := none _ hr; omega
      · exact hk

theorem canon_eq_nil (h : Segment H rem es) (hk : (canon H rem es).kind = HashedNode.EMPTY) : es = [] := by
  obtain ⟨he, _⟩ | ⟨_, k⟩ | ⟨_, k⟩ := canon_kind h
  · exact he
  all_goals rw [k] at hk; cases hk

theorem canon_eq_singleton (h : Segment H rem es)
    (hk : (canon H rem es).kind = HashedNode.LEAF) : ∃ e, es = [e] := by
  obtain ⟨_, k⟩ | ⟨he, _⟩ | ⟨_, k⟩ := canon_kind h
  · rw [k] at hk; cases hk
  · exact he
  · rw [k] at hk; cases hk

/-- Under an ideal hash a leaf summary names its entry. -/
theorem canon_eq_leaf (ideal : H.Ideal) (h : Segment H rem es) {k : Key} {v : D}
    (hv : v ≠ H.emptyHash) (he : canon H rem es = HashedNode.leaf H k v) : es = [(k, v)] := by
  obtain ⟨e, rfl⟩ := canon_eq_singleton h (by rw [he, HashedNode.leaf_kind_of_ne hv])
  obtain ⟨hKey, hVal⟩ := HashedNode.leaf_injective ideal (h.live e (by simp)) hv
    ((canon_singleton e).symm.trans he)
  rw [← hKey, ← hVal]

/-- Two entries or more are hashed from both sides. -/
theorem canon_of_two (h : Segment H rem es) (two : 2 ≤ es.length) :
    ∃ n, rem = n + 1 ∧ canon H rem es = ⟨HashedNode.INTERNAL,
      H.hashPartsWithDomain [HashedNode.INTERNAL, (canon H n (side n false es)).kind,
        (canon H n (side n true es)).kind]
        [.digest (canon H n (side n false es)).hash, .digest (canon H n (side n true es)).hash]⟩ := by
  have hk : (canon H rem es).kind = HashedNode.INTERNAL := by
    obtain ⟨rfl, _⟩ | ⟨⟨e, rfl⟩, _⟩ | ⟨_, hk⟩ := canon_kind h
    · simp at two
    · simp at two
    · exact hk
  cases rem with
  | zero =>
    have := h.length_le_one
    omega
  | succ n =>
    refine ⟨n, rfl, ?_⟩
    rw [canon_succ h.live] at hk ⊢
    obtain ⟨hl, _, he⟩ | ⟨_, hr, he⟩ | ⟨_, _, he⟩ | ⟨hi, hash⟩ :=
      HashedNode.combine_cases (H := H) (canon H n (side n false es))
        (canon H n (side n true es))
    · rw [he, hl] at hk; cases hk
    · rw [he, hr] at hk; cases hk
    · rw [he] at hk; cases hk
    · exact HashedNode.ext hi hash

/-- An internal canonical node authenticates both of its sides. -/
theorem canon_eq_internal (ideal : H.Ideal) (h : Segment H rem es) {l r : HashedNode D}
    (hk : (canon H rem es).kind = HashedNode.INTERNAL)
    (hh : (canon H rem es).hash = H.hashPartsWithDomain [HashedNode.INTERNAL, l.kind, r.kind]
      [.digest l.hash, .digest r.hash]) :
    ∃ n, rem = n + 1 ∧ l = canon H n (side n false es) ∧ r = canon H n (side n true es) := by
  have two : 2 ≤ es.length := by
    obtain ⟨_, k⟩ | ⟨_, k⟩ | ⟨two, _⟩ := canon_kind h
    · rw [k] at hk; cases hk
    · rw [k] at hk; cases hk
    · exact two
  obtain ⟨n, hn, he⟩ := canon_of_two h two
  rw [he] at hh
  obtain ⟨hd, hp⟩ := ideal.injective hh
  simp only [List.cons.injEq, HashPart.digest.injEq, and_true, true_and] at hd hp
  exact ⟨n, hn, HashedNode.ext hd.1.symm hp.1.symm, HashedNode.ext hd.2.symm hp.2.symm⟩

omit [DecidableEq D] in
theorem side_append_perm (rem : Nat) (es : List (Key × D)) :
    (side rem false es ++ side rem true es).Perm es := by
  have flip : side rem true es = es.filter fun e => !(e.1.getMsb (255 - rem) == false) :=
    List.filter_congr fun e _ => by cases e.1.getMsb (255 - rem) <;> rfl
  rw [flip]
  exact List.filter_append_perm _ _

/-- Under an ideal hash a summary determines its entries, at whatever level it stands. -/
theorem perm_of_canon_eq (ideal : H.Ideal) {rem' : Nat} {es' : List (Key × D)} (h : Segment H rem es)
    (h' : Segment H rem' es') (he : canon H rem es = canon H rem' es') : es.Perm es' := by
  induction rem generalizing rem' es es' with
  | zero =>
    obtain ⟨rfl, hk⟩ | ⟨⟨e, rfl⟩, _⟩ | ⟨two, _⟩ := canon_kind h
    · rw [canon_eq_nil h' (he ▸ hk)]
    · rw [canon_eq_leaf ideal h' (h.live e (by simp)) (he.symm.trans (canon_singleton e))]
    · have := h.length_le_one
      omega
  | succ n ih =>
    obtain ⟨rfl, hk⟩ | ⟨⟨e, rfl⟩, _⟩ | ⟨two, _⟩ := canon_kind h
    · rw [canon_eq_nil h' (he ▸ hk)]
    · rw [canon_eq_leaf ideal h' (h.live e (by simp)) (he.symm.trans (canon_singleton e))]
    · obtain ⟨m, hm, hash⟩ := canon_of_two h two
      cases hm
      obtain ⟨m, rfl, hl, hr⟩ := canon_eq_internal ideal h' (he ▸ congrArg HashedNode.kind hash)
        (he ▸ congrArg HashedNode.hash hash)
      have sides := (ih (h.side false) (h'.side false) hl).append (ih (h.side true) (h'.side true) hr)
      exact ((side_append_perm n es).symm.trans sides).trans (side_append_perm m es')

/-- The summary depends on the entries only, not on their order. -/
theorem canon_perm {es es' : List (Key × D)} (h : es.Perm es') : canon H rem es = canon H rem es' := by
  induction rem generalizing es es' with
  | zero =>
    match es, es', h with
    | [], es', h => rw [List.nil_perm.mp h]
    | [e], es', h => rw [List.singleton_perm.mp h]
    | _ :: _ :: _, [], h => exact absurd h.length_eq (by simp)
    | _ :: _ :: _, [_], h => exact absurd h.length_eq (by simp)
    | _ :: _ :: _, _ :: _ :: _, _ => rfl
  | succ rem ih =>
    match es, es', h with
    | [], es', h => rw [List.nil_perm.mp h]
    | [e], es', h => rw [List.singleton_perm.mp h]
    | _ :: _ :: _, [], h => exact absurd h.length_eq (by simp)
    | _ :: _ :: _, [_], h => exact absurd h.length_eq (by simp)
    | _ :: _ :: _, _ :: _ :: _, h =>
      exact congrArg₂ (HashedNode.combine H) (ih (h.filter _)) (ih (h.filter _))

/-- Lists without repeated keys and with the same entries have one summary. -/
theorem canon_congr {es es' : List (Key × D)} (h : (es.map Prod.fst).Nodup)
    (h' : (es'.map Prod.fst).Nodup) (same : ∀ e, e ∈ es ↔ e ∈ es') : canon H rem es = canon H rem es' :=
  canon_perm ((List.perm_ext_iff_of_nodup (h.of_map _) (h'.of_map _)).mpr same)

end Canon
end Vprogs.Smt
