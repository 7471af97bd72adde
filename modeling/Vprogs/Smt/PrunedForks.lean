import Vprogs.Smt.ForkedTree

/-!
Pruning a range of versions in a store of several forks. The markers of a version
name the nodes it replaced on its own fork; another fork may still read them.
-/
namespace Vprogs.Smt

namespace SmtStore

variable {D : Type} {s : SmtStore D} {lower upper : Nat}

/-- The nodes named by the markers of the range, deleted in one batch. -/
def pruneRange (s : SmtStore D) (lower upper : Nat) : SmtStore D :=
  (List.range' lower (upper + 1 - lower)).foldl
    (fun t index => (s.markers index).foldl (pruneMarker index) t) s

/-- The node a marker names. -/
def named (marker : Arr 42 × Arr 8) : Arr 42 :=
  (StaleNode.decodeKey marker.1).encodeWithVersion (StaleNode.decodeValue marker.2)

theorem decodeValue_lt (raw : Arr 8) : StaleNode.decodeValue raw < 2 ^ 64 := by
  have h := beNat_lt raw.val
  rw [raw.property] at h
  exact Nat.lt_of_lt_of_eq h (by decide)

theorem get_pruneMarkers (ms : List (Arr 42 × Arr 8)) (version : Nat) (t : SmtStore D) (raw : Arr 42) :
    (ms.foldl (pruneMarker version) t).nodes.get raw =
      if raw ∈ ms.map named then none else t.nodes.get raw := by
  induction ms generalizing t with
  | nil => rfl
  | cons m ms ih =>
    rw [List.foldl_cons, ih]
    change (if _ then none else (t.nodes.delete (named m)).get raw) = _
    rw [Column.get_delete]
    simp only [List.map_cons, List.mem_cons]
    by_cases hm : raw = named m <;> by_cases hms : raw ∈ ms.map named <;> simp [hm, hms]

/-- What the range's markers name is gone, everything else is as it was. -/
theorem get_pruneRange (raw : Arr 42) :
    (s.pruneRange lower upper).nodes.get raw =
      if raw ∈ (List.range' lower (upper + 1 - lower)).flatMap fun index => (s.markers index).map named
      then none else s.nodes.get raw := by
  unfold pruneRange
  suffices ∀ (indices : List Nat) (t : SmtStore D),
      (indices.foldl (fun t index => (s.markers index).foldl (pruneMarker index) t) t).nodes.get raw =
        if raw ∈ indices.flatMap fun index => (s.markers index).map named
        then none else t.nodes.get raw from this _ s
  intro indices
  induction indices with
  | nil => exact fun _ => rfl
  | cons index indices ih =>
    intro t
    rw [List.foldl_cons, ih, get_pruneMarkers]
    simp only [List.flatMap_cons, List.mem_append]
    by_cases hfirst : raw ∈ (s.markers index).map named <;>
      by_cases hrest : raw ∈ indices.flatMap fun index => (s.markers index).map named <;>
        simp [hfirst, hrest]

/-- Every node that the range's markers name at a visible version has a later
visible one at its position, no later than the first version after the range. -/
def Superseded (s : SmtStore D) (visible : Nat → Bool) (lower upper : Nat) : Prop :=
  ∀ index ∈ List.range' lower (upper + 1 - lower), ∀ m ∈ s.markers index,
    visible (StaleNode.decodeValue m.2) = true → (s.nodes.get (named m)).isSome = true →
      ∃ u ∈ List.range' (StaleNode.decodeValue m.2 + 1) (upper + 1 - StaleNode.decodeValue m.2),
        visible u = true ∧ (s.history (StaleNode.decodeKey m.1) u).isSome = true

instance (s : SmtStore D) (visible : Nat → Bool) (lower upper : Nat) :
    Decidable (s.Superseded visible lower upper) := by
  unfold Superseded
  infer_instance

theorem history_eq_of_named {m : Arr 42 × Arr 8} {key : NodeKey} {v : Nat} (hv : v < 2 ^ 64)
    (h : key.encodeWithVersion v = named m) :
    v = StaleNode.decodeValue m.2 ∧ s.history key = s.history (StaleNode.decodeKey m.1) := by
  have hversion : v = StaleNode.decodeValue m.2 := by
    rw [← NodeKey.decodeVersion_encodeWithVersion key hv, h, named,
      NodeKey.decodeVersion_encodeWithVersion _ (decodeValue_lt m.2)]
  refine ⟨hversion, funext fun u => ?_⟩
  have hencode : key.encode = (StaleNode.decodeKey m.1).encode := by
    have hbytes := congrArg Subtype.val h
    exact List.append_inj_left hbytes (by simp)
  have hraw : key.encodeWithVersion u = (StaleNode.decodeKey m.1).encodeWithVersion u :=
    Subtype.ext (congrArg (· ++ beBytes 8 (2 ^ 64 - 1 - u)) hencode)
  rw [history, hraw, history]

/-- The reads after the range survive if and only if the forks that stay have
replaced what the range's versions replaced. -/
theorem node_pruneRange_iff (visible : Nat → Bool) (hupper : upper + 1 < 2 ^ 64) :
    (∀ w, upper < w → w < 2 ^ 64 → ∀ key,
        (s.pruneRange lower upper).node visible w key = s.node visible w key) ↔
      s.Superseded visible lower upper := by
  constructor
  · intro h index hindex m hm hvis hsome
    obtain ⟨n, hn⟩ := Option.isSome_iff_exists.mp hsome
    have hlt := decodeValue_lt m.2
    by_contra hnone
    -- the read at the first version that sees the node resolves to it
    have hw : max (upper + 1) (StaleNode.decodeValue m.2) < 2 ^ 64 := Nat.max_lt.mpr ⟨hupper, hlt⟩
    have hread : s.node visible (max (upper + 1) (StaleNode.decodeValue m.2))
        (StaleNode.decodeKey m.1) = some (StaleNode.decodeValue m.2, n) := by
      rw [node_eq_latest _ _ hw, latest_eq_some]
      refine ⟨Nat.le_max_right _ _, by rw [seen, if_pos hvis]; exact hn, fun u hu hle => ?_⟩
      unfold seen
      split
      · next hvis' =>
        by_contra hne
        refine hnone ⟨u, List.mem_range'_1.mpr (by omega), hvis', ?_⟩
        exact Option.isSome_iff_ne_none.mpr hne
      · rfl
    have hsame := h _ (by omega) hw (StaleNode.decodeKey m.1)
    rw [hread, node_eq_latest _ _ hw, latest_eq_some] at hsame
    have hgone : (s.pruneRange lower upper).history (StaleNode.decodeKey m.1)
        (StaleNode.decodeValue m.2) = none := by
      change (s.pruneRange lower upper).nodes.get (named m) = none
      rw [get_pruneRange, if_pos (List.mem_flatMap.mpr ⟨index, hindex, List.mem_map_of_mem hm⟩)]
    have hseen := hsame.2.1
    rw [seen, hgone, ite_self] at hseen
    cases hseen
  · intro h w hw hlt key
    rw [node_eq_latest _ _ hlt, node_eq_latest _ _ hlt]
    have hget : ∀ u, (s.pruneRange lower upper).history key u = s.history key u ∨
        (s.pruneRange lower upper).history key u = none := by
      intro u
      rw [history, get_pruneRange]
      split
      · exact .inr rfl
      · exact .inl rfl
    refine latest_eq_of_superseded (fun u hu => ?_) (fun u hu hne => ?_)
    · unfold seen
      split
      · exact hget u
      · exact .inl rfl
    · unfold seen at hne
      split at hne
      · next hvis =>
        rw [history, get_pruneRange] at hne
        split at hne
        · next hmem =>
          obtain ⟨index, hindex, hm⟩ := List.mem_flatMap.mp hmem
          obtain ⟨m, hm, heq⟩ := List.mem_map.mp hm
          obtain ⟨hversion, hhistory⟩ := history_eq_of_named (s := s) (by omega) heq.symm
          have hstored : (s.nodes.get (named m)).isSome = true := by
            rw [heq]
            exact Option.isSome_iff_ne_none.mpr (Ne.symm hne)
          obtain ⟨u', hu', hvis', hlive⟩ := h index hindex m hm (hversion ▸ hvis) hstored
          rw [List.mem_range'_1] at hu'
          refine ⟨u', by omega, by omega, ?_⟩
          rw [seen, if_pos hvis', hhistory]
          exact Option.isSome_iff_ne_none.mp hlive
        · exact absurd rfl hne
      · exact absurd rfl hne

end SmtStore

end Vprogs.Smt
