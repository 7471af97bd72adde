import Mathlib.Data.Option.Basic

/-!
Versioned reads. A history holds at most one value per version, and a read at a
version sees the latest one at or before it. Writing a later version or removing
a superseded one leaves a read as it is.
-/
namespace Vprogs

section

variable {V : Type}

/-- The latest version at or before `w`, with its value. -/
def latest (history : Nat → Option V) : Nat → Option (Nat × V)
  | 0 => (history 0).map (0, ·)
  | w + 1 =>
    match history (w + 1) with
    | some x => some (w + 1, x)
    | none => latest history w

/-- The part of a history whose versions are visible. -/
def seen (visible : Nat → Bool) (history : Nat → Option V) : Nat → Option V :=
  fun v => if visible v then history v else none

variable {history history' : Nat → Option V} {w v : Nat} {x : V}

theorem latest_eq_some :
    latest history w = some (v, x) ↔ v ≤ w ∧ history v = some x ∧
      ∀ u, v < u → u ≤ w → history u = none := by
  induction w with
  | zero =>
    rw [latest, Option.map_eq_some_iff]
    constructor
    · intro ⟨y, hy, heq⟩
      cases heq
      exact ⟨Nat.le_refl _, hy, fun u h h' => by omega⟩
    · intro ⟨hle, hx, _⟩
      have hv : v = 0 := by omega
      exact ⟨x, hv ▸ hx, by rw [hv]⟩
  | succ w ih =>
    rw [latest]
    match hnew : history (w + 1) with
    | some y =>
      constructor
      · intro h
        cases h
        exact ⟨Nat.le_refl _, hnew, fun u h h' => by omega⟩
      · intro ⟨hle, hx, newest⟩
        by_cases hv : v = w + 1
        · rw [hv, hnew] at hx
          rw [hv, hx]
        · rw [newest (w + 1) (by omega) (Nat.le_refl _)] at hnew
          cases hnew
    | none =>
      change latest history w = some (v, x) ↔ _
      rw [ih]
      constructor
      · intro ⟨hle, hx, newest⟩
        refine ⟨by omega, hx, fun u hu hle' => ?_⟩
        by_cases hlast : u = w + 1
        · exact hlast ▸ hnew
        · exact newest u hu (by omega)
      · intro ⟨hle, hx, newest⟩
        have hne : v ≠ w + 1 := fun h => by
          rw [h, hnew] at hx
          cases hx
        exact ⟨by omega, hx, fun u hu hle' => newest u hu (by omega)⟩

/-- A read at `w` looks at no later version. -/
theorem latest_congr (h : ∀ u ≤ w, history u = history' u) : latest history w = latest history' w := by
  induction w with
  | zero => rw [latest, latest, h 0 (Nat.le_refl _)]
  | succ w ih =>
    rw [latest, latest, h (w + 1) (Nat.le_refl _), ih fun u hu => h u (by omega)]

/-- Versions that hold nothing are passed over. -/
theorem latest_eq_of_none (hv : v ≤ w) (h : ∀ u, v < u → u ≤ w → history u = none) :
    latest history w = latest history v := by
  induction w with
  | zero =>
    have hv : v = 0 := by omega
    rw [hv]
  | succ w ih =>
    by_cases heq : v = w + 1
    · rw [heq]
    · rw [latest, h (w + 1) (by omega) (Nat.le_refl _)]
      exact ih (by omega) fun u hu hle => h u hu (by omega)

theorem latest_eq_none (h : ∀ u ≤ w, history u = none) : latest history w = none := by
  induction w with
  | zero => rw [latest, h 0 (Nat.le_refl _)]; rfl
  | succ w ih =>
    rw [latest, h (w + 1) (Nat.le_refl _)]
    exact ih fun u hu => h u (by omega)

/-- A value at or before `w` gives a read something to see. -/
theorem exists_latest (hv : v ≤ w) (hne : history v ≠ none) : ∃ r, latest history w = some r := by
  induction w with
  | zero =>
    have h0 : v = 0 := by omega
    have ⟨y, hy⟩ := Option.ne_none_iff_exists'.mp hne
    exact ⟨(0, y), by rw [latest, ← h0, hy, h0]; rfl⟩
  | succ w ih =>
    rw [latest]
    match hnew : history (w + 1) with
    | some y => exact ⟨_, rfl⟩
    | none =>
      have hlt : v ≠ w + 1 := fun h => hne (h ▸ hnew)
      exact ih (by omega)

theorem latest_seen_self {visible : Nat → Bool} :
    latest (seen visible history) v = some (v, x) ↔ visible v = true ∧ history v = some x := by
  rw [latest_eq_some, seen]
  constructor
  · intro ⟨_, hx, _⟩
    split at hx
    · next hvisible => exact ⟨hvisible, hx⟩
    · cases hx
  · intro ⟨hvisible, hx⟩
    exact ⟨Nat.le_refl v, by rw [if_pos hvisible, hx], fun u hu hle => absurd hle (Nat.not_le.mpr hu)⟩

/-- Two readers see the same at every version if and only if they agree on each
version that holds something. -/
theorem latest_seen_eq_iff {visible visible' : Nat → Bool} {bound : Nat} :
    (∀ w < bound, latest (seen visible history) w = latest (seen visible' history) w) ↔
      ∀ v < bound, history v ≠ none → visible v = visible' v := by
  constructor
  · intro h v hv hne
    have ⟨x, hx⟩ := Option.ne_none_iff_exists'.mp hne
    have hself := h v hv
    rw [Bool.eq_iff_iff]
    constructor
    · intro hvisible
      rw [latest_seen_self.mpr ⟨hvisible, hx⟩] at hself
      exact (latest_seen_self.mp hself.symm).1
    · intro hvisible
      rw [latest_seen_self.mpr ⟨hvisible, hx⟩] at hself
      exact (latest_seen_self.mp hself).1
  · intro h w hw
    refine latest_congr fun u hu => ?_
    rw [seen, seen]
    cases hx : history u with
    | none => rw [ite_self, ite_self]
    | some x => rw [h u (Nat.lt_of_le_of_lt hu hw) (by rw [hx]; exact Option.some_ne_none x)]

/-- Removing values that a later version supersedes does not change a read. -/
theorem latest_eq_of_superseded (sub : ∀ u ≤ w, history' u = history u ∨ history' u = none)
    (superseded : ∀ u ≤ w, history' u ≠ history u → ∃ u', u < u' ∧ u' ≤ w ∧ history u' ≠ none) :
    latest history' w = latest history w := by
  match h : latest history w with
  | some (v, x) =>
    have ⟨hle, hx, newest⟩ := latest_eq_some.mp h
    refine latest_eq_some.mpr ⟨hle, ?_, fun u hu hle' => ?_⟩
    · by_contra hne
      have ⟨u', hlt, hle', hlive⟩ := superseded v hle (by rwa [hx])
      exact hlive (newest u' hlt hle')
    · match sub u hle' with
      | .inl heq => exact heq.trans (newest u hu hle')
      | .inr hnone => exact hnone
  | none =>
    refine latest_eq_none fun u hu => ?_
    match sub u hu with
    | .inr hnone => exact hnone
    | .inl heq =>
      rw [heq]
      by_contra hne
      have ⟨r, hr⟩ := exists_latest hu hne
      rw [h] at hr
      cases hr

end

end Vprogs
