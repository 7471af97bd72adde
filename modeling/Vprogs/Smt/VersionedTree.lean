import Vprogs.Smt.NodeStore
import Vprogs.Smt.UpdateWrites

/-!
Runs of updates. Each update reads the store as of the version before its own and
writes at its own, so reads at earlier versions stay as they are and a run of
updates follows the map its commitments describe.
-/
namespace Vprogs.Smt

namespace SmtStore

variable {D : Type}

/-! ### One batch -/

/-- The nodes of a batch at `version` are stored at that version only. -/
theorem history_apply (s : SmtStore D) {wb : WriteBatch D} {version : Nat} (hv : version < 2 ^ 64)
    (hwb : ∀ w ∈ wb, w.At version) {key : NodeKey} (hkey : key.level ≤ 256) {u : Nat} (hu : u < 2 ^ 64) :
    (s.apply wb).history key u =
      if u = version then (nodeAt wb key).or (s.history key u) else s.history key u := by
  induction wb using List.reverseRecOn with
  | nil => simp [apply, nodeAt]
  | append_singleton wb w ih =>
    have hlast := hwb w (by simp)
    have ih := ih fun w hw => hwb w (List.mem_append_left _ hw)
    have happly : s.apply (wb ++ [w]) = (s.apply wb).write w := by simp [apply]
    rw [happly, nodeAt_append]
    cases w with
    | putStaleNode stale => exact ih
    | putNode k v n =>
      obtain ⟨rfl, hk⟩ := hlast
      have single : nodeAt [.putNode k v n] key = if key = k then some n else none := by
        by_cases h : key = k <;> simp [nodeAt, SmtWrite.nodeAt, h, eq_comm]
      change ((s.apply wb).nodes.put (k.encodeWithVersion v) n).get (key.encodeWithVersion u) = _
      rw [Column.get_put, single]
      by_cases hsame : key = k ∧ u = v
      · rw [if_pos (by rw [hsame.1, hsame.2]), if_pos hsame.2, if_pos hsame.1]
        rfl
      · rw [if_neg fun h => hsame
          (NodeKey.encodeWithVersion_injective (by omega) (by omega) hu hv h)]
        change (s.apply wb).history key u = _
        rw [ih]
        by_cases huv : u = v
        · rw [if_pos huv, if_pos huv, if_neg fun h => hsame ⟨h, huv⟩, Option.none_or]
        · rw [if_neg huv, if_neg huv]

/-- Nothing is stored after `last`. -/
def Fresh (s : SmtStore D) (last : Nat) : Prop :=
  ∀ (key : NodeKey) (u : Nat), key.level ≤ 256 → last < u → u < 2 ^ 64 → s.history key u = none

section Batch

variable {s : SmtStore D} {visible : Nat → Bool} {wb : WriteBatch D} {last version w : Nat}
  (hv : version < 2 ^ 64) (hwb : ∀ w ∈ wb, w.At version)
include hv hwb

theorem Fresh.apply (h : s.Fresh last) (hlast : last < version) : (s.apply wb).Fresh version := by
  intro key u hkey hlt hu
  rw [history_apply s hv hwb hkey hu, if_neg (by omega)]
  exact h key u hkey (by omega) hu

/-- Reads at earlier versions do not see the batch. -/
theorem node_apply_before (hw : w < version) {key : NodeKey} (hkey : key.level ≤ 256) :
    (s.apply wb).node visible w key = s.node visible w key := by
  rw [node_eq_latest _ _ (by omega), node_eq_latest _ _ (by omega)]
  refine latest_congr fun u hu => ?_
  have hne : u ≠ version := by omega
  rw [seen, seen, history_apply s hv hwb hkey (by omega), if_neg hne]

/-- Reads from its version on see the batch on top of what was there before. -/
theorem node_apply (hvis : visible version = true) {key : NodeKey} (hkey : key.level ≤ 256)
    (hfree : s.history key version = none) :
    (s.apply wb).node visible version key =
      Updater.after ⟨s.node visible (version - 1), version⟩ wb key := by
  rw [node_eq_latest _ _ hv, Updater.after]
  match hn : nodeAt wb key with
  | some n =>
    have newest : ∀ u, version < u → u ≤ version →
        seen visible ((s.apply wb).history key) u = none := fun u hlt hle => by omega
    refine latest_eq_some.mpr ⟨Nat.le_refl _, ?_, newest⟩
    rw [seen, if_pos hvis, history_apply s hv hwb hkey hv, if_pos rfl, hn, Option.some_or]
  | none =>
    have unwritten : ∀ u ≤ version, seen visible ((s.apply wb).history key) u =
        seen visible (s.history key) u := by
      intro u hu
      rw [seen, seen, history_apply s hv hwb hkey (by omega), hn, Option.none_or, ite_self]
    rw [latest_congr unwritten]
    change _ = s.node visible (version - 1) key
    rw [node_eq_latest _ _ (by omega)]
    refine latest_eq_of_none (by omega) fun u hlt hle => ?_
    rw [show u = version by omega, seen, hfree, ite_self]

end Batch

/-! ### Runs -/

variable [DecidableEq D] (H : Hasher D) (visible : Nat → Bool)

omit [DecidableEq D] in
/-- `Tree::root`; version 0 is pre-genesis. -/
def root (s : SmtStore D) (version : Nat) : D :=
  if version = 0 then H.emptyHash else Tree.root H (s.node visible version)

/-- An update whose writes are applied. -/
def update (s : SmtStore D) (commitments : List (Commitment D)) (version : Nat) :
    Guest (D × SmtStore D) := do
  let (root, wb) ← Tree.update H (s.node visible (version - 1)) commitments version
  pure (root, s.apply wb)

/-- Updates in order, with the roots they return. -/
def run : List (Nat × List (Commitment D)) → SmtStore D → Guest (List D × SmtStore D)
  | [], s => .ok ([], s)
  | (version, commitments) :: rest, s => do
      let (root, s) ← s.update H visible commitments version
      let (roots, s) ← run rest s
      pure (root :: roots, s)

/-- Nothing is stored after `last`, and what is readable there is the tree of `S`. -/
structure Holds (s : SmtStore D) (last : Nat) (S : StateMap H) : Prop where
  fresh : s.Fresh last
  stored : Stores H (s.node visible last) DEPTH NodeKey.ROOT S.entries
  genesis : last = 0 → S.entries = []

variable {H visible} {s : SmtStore D} {S : StateMap H} {last : Nat}

omit [DecidableEq D] in
/-- Versions at which nothing is stored read as the last one before. -/
theorem Fresh.node_eq {w : Nat} (h : s.Fresh last) (hw : last ≤ w) (hw' : w < 2 ^ 64) {key : NodeKey}
    (hkey : key.level ≤ 256) : s.node visible w key = s.node visible last key := by
  rw [node_eq_latest _ _ hw', node_eq_latest _ _ (by omega)]
  refine latest_eq_of_none hw fun u hlt hle => ?_
  rw [seen, h key u hkey hlt (by omega), ite_self]

omit [DecidableEq D] in
theorem live_congr {node node' : Reads D} {key : NodeKey} (h : node key = node' key) :
    node.live key = node'.live key := by
  rw [Reads.live, h, Reads.live]

theorem Holds.later {w : Nat} (h : Holds H visible s last S) (hw : last ≤ w) (hw' : w < 2 ^ 64) :
    Holds H visible s w S where
  fresh key u hkey hlt hu := h.fresh key u hkey (by omega) hu
  stored := h.stored.congr rfl fun k _ hk => live_congr (h.fresh.node_eq hw hw' hk)
  genesis hzero := h.genesis (by omega)

theorem Holds.root (h : Holds H visible s last S) : s.root H visible last = S.root := by
  rw [SmtStore.root]
  split
  · next hzero =>
    rw [StateMap.root, h.genesis hzero, canon_nil]
    rfl
  · exact Tree.root_eq h.stored

/-- One update: the root returned is that of the new map, which the store then
holds, and earlier versions read as before. -/
theorem Holds.update {version : Nat} (h : Holds H visible s last S) (hlast : last < version)
    (hv : version < 2 ^ 64) (hvis : visible version = true) (cs : List (Commitment D))
    (keeps : Keeps DEPTH S.entries (S.setAll cs).entries) :
    ∃ s', s.update H visible cs version = .ok ((S.setAll cs).root, s') ∧
      Holds H visible s' version (S.setAll cs) ∧
      ∀ w < version, ∀ key : NodeKey, key.level ≤ 256 →
        s'.node visible w key = s.node visible w key := by
  have before := h.later (show last ≤ version - 1 by omega) (by omega)
  have ⟨wb, hupdate, stored, hat⟩ := Tree.update_stores before.stored cs (show 0 < version by omega)
    (fun hone => before.genesis (by omega)) keeps
  refine ⟨s.apply wb, by rw [SmtStore.update, hupdate]; rfl, ⟨h.fresh.apply hv hat hlast, ?_, ?_⟩,
    fun w hw key hkey => node_apply_before hv hat hw hkey⟩
  · exact stored.congr rfl fun k _ hk =>
      live_congr (node_apply hv hat hvis hk (h.fresh k version hk hlast hv))
  · intro hzero
    omega

end SmtStore

/-! ### The condition -/

namespace StateMap

variable {D : Type} {H : Hasher D}

def empty (H : Hasher D) : StateMap H where
  entries := []
  sorted := List.Pairwise.nil
  live := by simp

/-- The entries whose keys share the first `bits` bits with `k`. -/
def sharing (S : StateMap H) (k : Key) (bits : Nat) : List (Key × D) :=
  S.entries.filter fun e => k.sharesPrefix e.1 bits

/-- Every bit prefix shared by two keys is still shared by two afterwards. -/
def KeepsPairs (S S' : StateMap H) : Prop :=
  ∀ k bits, 2 ≤ (S.sharing k bits).length → 2 ≤ (S'.sharing k bits).length

/-- One side of the entries that share a prefix is the entries that share a longer
one with any of them. -/
theorem side_sharing (S : StateMap H) {k k' : Key} {rem bits : Nat} (hbits : bits + (rem + 1) = 256)
    (shared : k.sharesPrefix k' bits = true) :
    side rem (k'.getMsb (255 - rem)) (S.sharing k bits) = S.sharing k' (bits + 1) := by
  rw [Key.sharesPrefix_iff] at shared
  rw [side, sharing, sharing, List.filter_filter]
  refine List.filter_congr fun e _ => Bool.eq_iff_iff.mpr ?_
  rw [Bool.and_eq_true, beq_iff_eq, Key.sharesPrefix_iff, Key.sharesPrefix_iff,
    show 255 - rem = bits by omega]
  constructor
  · rintro ⟨hbit, hle, h⟩
    refine ⟨by omega, fun i hi => ?_⟩
    rcases Nat.lt_succ_iff_lt_or_eq.mp hi with hlt | heq
    · rw [← shared.2 i hlt, h i hlt]
    · rw [heq, hbit]
  · rintro ⟨_, h⟩
    exact ⟨(h bits (Nat.lt_succ_self _)).symm, by omega, fun i hi =>
      (shared.2 i hi).trans (h i (by omega))⟩

/-- Keys that share a prefix share it with the same keys. -/
theorem sharing_congr (S : StateMap H) {k k' : Key} {bits : Nat}
    (shared : k.sharesPrefix k' bits = true) : S.sharing k bits = S.sharing k' bits := by
  rw [Key.sharesPrefix_iff] at shared
  refine List.filter_congr fun e _ => Bool.eq_iff_iff.mpr ?_
  rw [Key.sharesPrefix_iff, Key.sharesPrefix_iff]
  exact and_congr_right fun _ => forall_congr' fun i => forall_congr' fun hi => by
    rw [shared.2 i hi]

/-- What holds for every bit prefix holds at every position of the tree. -/
theorem everywhere_of_sharing {R : Nat → List (Key × D) → List (Key × D) → Prop}
    {S S' : StateMap H} (hnil : ∀ rem es', R rem [] es')
    (h : ∀ {rem bits} k, bits + (rem + 1) = 256 → R rem (S.sharing k bits) (S'.sharing k bits)) :
    Everywhere R DEPTH S.entries S'.entries := by
  have sharing_zero : ∀ S : StateMap H, S.sharing 0 0 = S.entries := fun S => by
    rw [sharing, List.filter_eq_self]
    exact fun e _ => (Key.sharesPrefix_iff _ _ _).mpr
      ⟨Nat.zero_le _, fun i hi => absurd hi (Nat.not_lt_zero i)⟩
  suffices ∀ rem bits k, bits + rem = 256 →
      Everywhere R rem (S.sharing k bits) (S'.sharing k bits) by
    have := this DEPTH 0 0 rfl
    rwa [sharing_zero, sharing_zero] at this
  intro rem
  induction rem with
  | zero => exact fun _ _ _ => trivial
  | succ rem ih =>
    intro bits k hbits
    refine ⟨h k hbits, fun b => ?_⟩
    match hside : side rem b (S.sharing k bits) with
    | [] => exact everywhere_nil hnil
    | e :: rest =>
      have ⟨he, hb⟩ := mem_side.mp (hside ▸ List.mem_cons_self : e ∈ side rem b (S.sharing k bits))
      have shared : k.sharesPrefix e.1 bits = true := (List.mem_filter.mp he).2
      rw [← hside, ← hb, side_sharing S hbits shared, side_sharing S' hbits shared]
      exact ih (bits + 1) e.1 (by omega)

theorem KeepsPairs.keeps {S S' : StateMap H} (h : S.KeepsPairs S') : Keeps DEPTH S.entries S'.entries :=
  everywhere_of_sharing (fun _ _ two => absurd two (by simp)) fun k _ => h k _

end StateMap

/-! ### Refinement -/

section

variable {D : Type} [DecidableEq D] {H : Hasher D} {visible : Nat → Bool}

/-- The map after some updates, from the empty one. -/
def mapAfter (H : Hasher D) (updates : List (Nat × List (Commitment D))) : StateMap H :=
  updates.foldl (fun S u => S.setAll u.2) (StateMap.empty H)

/-- Versions ascend from `last` and fit the store's keys. -/
def Ascending (visible : Nat → Bool) (last : Nat) (updates : List (Nat × List (Commitment D))) : Prop :=
  (last :: updates.map Prod.fst).Pairwise (· < ·) ∧
    ∀ u ∈ updates, u.1 < 2 ^ 64 ∧ visible u.1 = true

/-- A run from a store that holds a map: every root returned is that of the map
at that point, and reading the root back later gives the same. -/
theorem SmtStore.Holds.run {s : SmtStore D} {S : StateMap H} {last : Nat}
    {updates : List (Nat × List (Commitment D))} (h : Holds H visible s last S)
    (ascending : Ascending visible last updates)
    (keeps : ∀ pre u post, updates = pre ++ u :: post →
      (pre.foldl (fun S u => S.setAll u.2) S).KeepsPairs
        ((pre ++ [u]).foldl (fun S u => S.setAll u.2) S)) :
    ∃ roots s', SmtStore.run H visible updates s = .ok (roots, s') ∧
      roots.length = updates.length ∧
      (∀ w ≤ last, ∀ key : NodeKey, key.level ≤ 256 →
        s'.node visible w key = s.node visible w key) ∧
      ∀ (i : Nat) u, updates[i]? = some u →
        roots[i]? = some ((updates.take (i + 1)).foldl (fun S u => S.setAll u.2) S).root ∧
        s'.root H visible u.1 = ((updates.take (i + 1)).foldl (fun S u => S.setAll u.2) S).root := by
  induction updates generalizing s S last with
  | nil => exact ⟨[], s, rfl, rfl, fun _ _ _ _ => rfl, fun i u hi => by simp at hi⟩
  | cons u updates ih =>
    have ⟨order, fits⟩ := ascending
    rw [List.map_cons, List.pairwise_cons] at order
    have hu := fits u List.mem_cons_self
    have hlast : last < u.1 := order.1 u.1 List.mem_cons_self
    have ⟨s₁, hupdate, h₁, before₁⟩ := h.update hlast hu.1 hu.2 u.2
      (keeps [] u updates rfl).keeps
    have ⟨roots, s', hrun, hlen, before, hroots⟩ := ih h₁
      ⟨order.2, fun u' hu' => fits u' (List.mem_cons_of_mem _ hu')⟩
      (fun pre u' post heq => keeps (u :: pre) u' post (by rw [heq]; rfl))
    refine ⟨(S.setAll u.2).root :: roots, s', ?_, by rw [List.length_cons, hlen, List.length_cons],
      fun w hw key hkey => ?_, fun i u' hi => ?_⟩
    · rw [SmtStore.run, hupdate]
      change (do
        let (roots, s) ← SmtStore.run H visible updates s₁
        pure ((S.setAll u.2).root :: roots, s) : Guest _) = _
      rw [hrun]
      rfl
    · rw [before w (by omega) key hkey, before₁ w (by omega) key hkey]
    · match i with
      | 0 =>
        cases hi
        refine ⟨rfl, ?_⟩
        change _ = (S.setAll u.2).root
        rw [← h₁.root, SmtStore.root, SmtStore.root, Tree.root, Tree.root,
          before u.1 (Nat.le_refl _) NodeKey.ROOT (Nat.zero_le _)]
      | i + 1 => exact hroots i u' hi

/-- The empty store holds the empty map. -/
theorem SmtStore.holds_empty (H : Hasher D) (visible : Nat → Bool) :
    Holds H visible {} 0 (StateMap.empty H) where
  fresh _ _ _ _ _ := rfl
  stored := stores_nil fun _ _ => rfl
  genesis _ := rfl

/-- From the empty store, as long as no update leaves a bit prefix shared by two
keys with fewer than two, the tree follows the map: each root returned, and the
root read back at that version after all updates, is the root of the map of the
updates so far. -/
theorem run_refines_map {updates : List (Nat × List (Commitment D))}
    (ascending : Ascending visible 0 updates)
    (keeps : ∀ pre u post, updates = pre ++ u :: post →
      (mapAfter H pre).KeepsPairs (mapAfter H (pre ++ [u]))) :
    ∃ roots s, SmtStore.run H visible updates {} = .ok (roots, s) ∧ roots.length = updates.length ∧
      ∀ (i : Nat) u, updates[i]? = some u →
        roots[i]? = some (mapAfter H (updates.take (i + 1))).root ∧
        s.root H visible u.1 = (mapAfter H (updates.take (i + 1))).root := by
  have ⟨roots, s, hrun, hlen, _, hroots⟩ := (SmtStore.holds_empty H visible).run ascending keeps
  exact ⟨roots, s, hrun, hlen, hroots⟩

/-- Two keys on either side of the root; one is deleted and another key is put on
its side. -/
def ghostUpdates : List (Nat × List (Commitment Nat)) :=
  [(1, [(0, 7), (1 <<< 255, 8)]), (2, [(1 <<< 255, 0)]), (3, [(3 <<< 254, 9)])]

/-- The map with the deleted key back in it. -/
def ghostMap : StateMap codeHasher :=
  mapAfter codeHasher [(1, [(0, 7), (1 <<< 255, 8), (3 <<< 254, 9)])]

/-- The deleted key reappears: the last root is not that of the map but that of the
map with the key still in it. -/
theorem ghost_reappears :
    codeHasher.Ideal ∧ Ascending (fun _ => true) 0 ghostUpdates ∧
      Prod.fst <$> SmtStore.run codeHasher (fun _ => true) ghostUpdates {} =
        .ok [(mapAfter codeHasher (ghostUpdates.take 1)).root,
          (mapAfter codeHasher (ghostUpdates.take 2)).root, ghostMap.root] ∧
      ghostMap.root ≠ (mapAfter codeHasher ghostUpdates).root :=
  ⟨codeHasher_ideal, by unfold Ascending; decide, by decide +kernel, by decide +kernel⟩

/-- Two keys are put, then one is overwritten. -/
def overwriting : List (Nat × List (Commitment Nat)) :=
  [(1, [(0, 7), (1 <<< 255, 8)]), (5, [(1 <<< 255, 9)])]

theorem overwriting_refines :
    ∃ roots s, SmtStore.run codeHasher (fun _ => true) overwriting {} = .ok (roots, s) ∧
      roots.length = overwriting.length ∧
      ∀ (i : Nat) u, overwriting[i]? = some u →
        roots[i]? = some (mapAfter codeHasher (overwriting.take (i + 1))).root ∧
        s.root codeHasher (fun _ => true) u.1 =
          (mapAfter codeHasher (overwriting.take (i + 1))).root := by
  refine run_refines_map (by unfold Ascending; decide) fun pre u post heq => ?_
  have first : (mapAfter codeHasher (overwriting.take 1)).entries =
      ([(0, 7), (1 <<< 255, 8)] : List (Commitment Nat)) := by decide +kernel
  have second : (mapAfter codeHasher overwriting).entries =
      ([(0, 7), (1 <<< 255, 9)] : List (Commitment Nat)) := by decide +kernel
  match pre, heq with
  | [], _ => exact fun k bits h => absurd h (by simp [StateMap.sharing, mapAfter, StateMap.empty])
  | [_], heq =>
    cases heq
    intro k bits h
    change 2 ≤ ((mapAfter codeHasher (overwriting.take 1)).sharing k bits).length at h
    change 2 ≤ ((mapAfter codeHasher overwriting).sharing k bits).length
    unfold StateMap.sharing at h ⊢
    rw [first] at h
    rw [second]
    simp only [List.filter_cons, List.filter_nil] at h ⊢
    split at h <;> split at h <;> simp_all
  | _ :: _ :: pre, heq => simp [overwriting] at heq

end

end Vprogs.Smt
