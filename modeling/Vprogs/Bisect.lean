import Mathlib.Algebra.Group.Nat.Defs
import Mathlib.Order.Bounds.Basic

/-!
Binary search for the least number at which a test succeeds. The test may fail to answer;
where it always answers, and keeps succeeding from some number on, the search ends at that
number.
-/
namespace Vprogs

variable {m : Type → Type} [Monad m]

/-- Halves the range from `lo` to `hi`, at whose end the test succeeds. -/
def bisect (test : Nat → m Bool) : Nat → Nat → Nat → m Nat
  | 0, lo, _ => pure lo
  | fuel + 1, lo, hi =>
    if lo < hi then do
      let mid := lo + (hi - lo) / 2
      if ← test mid then bisect test fuel lo mid else bisect test fuel (mid + 1) hi
    else pure lo

theorem bisect_of_lt {test : Nat → m Bool} {fuel lo hi : Nat} (h : lo < hi) :
    bisect test (fuel + 1) lo hi = (do
      if ← test (lo + (hi - lo) / 2) then bisect test fuel lo (lo + (hi - lo) / 2)
      else bisect test fuel (lo + (hi - lo) / 2 + 1) hi) := by
  rw [bisect, if_pos h]

/-- The search ends at the least number from `lo` on at which the test succeeds. -/
theorem bisect_isLeast [LawfulMonad m] {test : Nat → m Bool} {p : Nat → Prop} [DecidablePred p]
    {fuel lo hi : Nat} (hle : lo ≤ hi) (hfuel : hi - lo < 2 ^ fuel)
    (htest : ∀ k, lo ≤ k → k ≤ hi → test k = pure (decide (p k)))
    (hmono : ∀ j k, lo ≤ j → j ≤ k → k ≤ hi → p j → p k) (hhi : p hi) :
    ∃ least, bisect test fuel lo hi = pure least ∧ IsLeast {k | lo ≤ k ∧ p k} least := by
  induction fuel generalizing lo hi with
  | zero =>
    have heq : lo = hi := by omega
    subst heq
    exact ⟨lo, rfl, ⟨Nat.le_refl lo, hhi⟩, fun _ h => h.1⟩
  | succ fuel ih =>
    by_cases hlt : lo < hi
    · rw [Nat.pow_succ] at hfuel
      have hmid := htest (lo + (hi - lo) / 2) (by omega) (by omega)
      rw [bisect_of_lt hlt, hmid, pure_bind]
      by_cases hp : p (lo + (hi - lo) / 2)
      · have hleft : lo ≤ lo + (hi - lo) / 2 := by omega
        have ⟨least, hrun, hleast⟩ := ih hleft (by omega) (fun k hk hk' => htest k hk (by omega))
          (fun j k hj hjk hk => hmono j k hj hjk (by omega)) hp
        exact ⟨least, by rw [decide_eq_true hp, if_pos rfl, hrun], hleast⟩
      · have hright : lo + (hi - lo) / 2 + 1 ≤ hi := by omega
        have ⟨least, hrun, hleast⟩ := ih hright (by omega) (fun k hk hk' => htest k (by omega) hk')
          (fun j k hj hjk hk => hmono j k (by omega) hjk hk) hhi
        refine ⟨least, by rw [decide_eq_false hp, if_neg (by decide), hrun], ?_, fun k hk => ?_⟩
        · exact ⟨Nat.le_trans (by omega) hleast.1.1, hleast.1.2⟩
        · -- below the middle the test fails, since it fails there
          refine hleast.2 ⟨?_, hk.2⟩
          by_contra hlow
          exact hp (hmono k _ hk.1 (by omega) (by omega) hk.2)
    · have heq : lo = hi := by omega
      subst heq
      refine ⟨lo, ?_, ⟨Nat.le_refl lo, hhi⟩, fun _ h => h.1⟩
      rw [bisect, if_neg hlt]

end Vprogs
