import Mathlib.Data.List.Basic

/-!
Runs of a partial step function over a list of events. A step that is not enabled
ends the run; a condition on the steps of a run is stated along the run, before
each step.
-/
namespace Vprogs.Runs
variable {σ ε : Type*} (step : σ → ε → Option σ)

def run : σ → List ε → Option σ
  | s, [] => some s
  | s, e :: events => (step s e).bind fun s' => run s' events

/-- Every step of the run meets `P` in the state before it. -/
def Along (P : σ → ε → Prop) : σ → List ε → Prop
  | _, [] => True
  | s, e :: events => P s e ∧ ∀ s', step s e = some s' → Along P s' events

variable {step} {P : σ → ε → Prop} {s s' : σ} {e : ε} {events rest : List ε}

theorem run_cons : run step s (e :: events) = some s' ↔
    ∃ m, step s e = some m ∧ run step m events = some s' :=
  Option.bind_eq_some_iff

/-- What every step that meets the condition preserves, a whole run preserves. -/
theorem invariant {I : σ → Prop}
    (hstep : ∀ {s e s'}, I s → P s e → step s e = some s' → I s')
    (hs : I s) (halong : Along step P s events) (hrun : run step s events = some s') : I s' := by
  induction events generalizing s with
  | nil => cases hrun; exact hs
  | cons e events ih =>
    have ⟨m, hm, hrest⟩ := run_cons.mp hrun
    exact ih (hstep hs halong.1 hm) (halong.2 m hm) hrest

/-- When a step that meets the condition is always enabled, so is a whole run of them. -/
theorem exists_run {I : σ → Prop} (hstep : ∀ {s e}, I s → P s e → ∃ s', step s e = some s' ∧ I s')
    (hs : I s) (halong : Along step P s events) : ∃ s', run step s events = some s' ∧ I s' := by
  induction events generalizing s with
  | nil => exact ⟨s, rfl, hs⟩
  | cons e events ih =>
    have ⟨m, hm, hi⟩ := hstep hs halong.1
    have ⟨s', hrun, hlast⟩ := ih hi (halong.2 m hm)
    exact ⟨s', run_cons.mpr ⟨m, hm, hrun⟩, hlast⟩

/-- What every step that meets the condition simulates, a whole run simulates. -/
theorem simulation {τ : Type*} {step' : τ → ε → Option τ} {R : σ → τ → Prop} {t : τ}
    (hstep : ∀ {s t e s'}, R s t → P s e → step s e = some s' → ∃ t', step' t e = some t' ∧ R s' t')
    (hr : R s t) (halong : Along step P s events) (hrun : run step s events = some s') :
    ∃ t', run step' t events = some t' ∧ R s' t' := by
  induction events generalizing s t with
  | nil =>
    cases hrun
    exact ⟨t, rfl, hr⟩
  | cons e events ih =>
    have ⟨m, hm, hrest⟩ := run_cons.mp hrun
    have ⟨n, hn, hmn⟩ := hstep hr halong.1 hm
    have ⟨t', hrun', hlast⟩ := ih hmn (halong.2 m hm) hrest
    exact ⟨t', run_cons.mpr ⟨n, hn, hrun'⟩, hlast⟩

/-- An event that reaches the goal or lowers a measure reaches the goal when it is repeated. -/
theorem exists_replicate {I G : σ → Prop} (μ : σ → Nat)
    (hstep : ∀ {s}, I s → G s ∨ ∃ s', step s e = some s' ∧ (G s' ∨ I s' ∧ μ s' < μ s)) (hs : I s) :
    ∃ n s', run step s (List.replicate n e) = some s' ∧ G s' := by
  induction h : μ s using Nat.strongRecOn generalizing s with
  | ind _ ih =>
    obtain hgoal | ⟨m, hm, hgoal | ⟨hi, hlt⟩⟩ := hstep hs
    · exact ⟨0, s, rfl, hgoal⟩
    · exact ⟨1, m, run_cons.mpr ⟨m, hm, rfl⟩, hgoal⟩
    · obtain ⟨n, s', hrun, hgoal⟩ := ih (μ m) (h ▸ hlt) hi rfl
      exact ⟨n + 1, s', run_cons.mpr ⟨m, hm, hrun⟩, hgoal⟩

theorem along_true : Along step (fun _ _ => True) s events := by
  induction events generalizing s with
  | nil => trivial
  | cons e events ih => exact ⟨trivial, fun _ _ => ih⟩

theorem invariant_all {I : σ → Prop} (hstep : ∀ {s e s'}, I s → step s e = some s' → I s')
    (hs : I s) (hrun : run step s events = some s') : I s' :=
  invariant (P := fun _ _ => True) (fun h _ he => hstep h he) hs along_true hrun

/-- When a step keeps `I` exactly if it meets the condition, `I` holds in every state of
a run exactly if the whole run meets it. -/
theorem forall_before_iff_along {I J : σ → Prop} (hsound : ∀ {s e s'}, J s → step s e = some s' → J s')
    (hiff : ∀ {s e s'}, I s → J s → step s e = some s' → (I s' ↔ P s e)) (hi : I s) (hj : J s)
    (hrun : run step s events = some s') :
    (∀ before after m, events = before ++ after → run step s before = some m → I m) ↔
      Along step P s events := by
  induction events generalizing s with
  | nil =>
    refine iff_of_true (fun before after m hnil hbefore => ?_) trivial
    have hbefore' : before = [] := (List.append_eq_nil_iff.mp hnil.symm).1
    subst hbefore'
    cases hbefore
    exact hi
  | cons e events ih =>
    have ⟨m, hm, hrest⟩ := run_cons.mp hrun
    constructor
    · intro h
      have him : I m := h [e] events m rfl (run_cons.mpr ⟨m, hm, rfl⟩)
      refine ⟨(hiff hi hj hm).mp him, fun m' hm' => ?_⟩
      cases hm.symm.trans hm'
      refine (ih him (hsound hj hm) hrest).mp fun before after k hk hbefore => ?_
      exact h (e :: before) after k (congrArg (e :: ·) hk) (run_cons.mpr ⟨m, hm, hbefore⟩)
    · intro h before after k hk hbefore
      have him : I m := (hiff hi hj hm).mpr h.1
      match before with
      | [] => cases hbefore; exact hi
      | b :: before =>
        cases hk
        have ⟨m', hm', hbefore⟩ := run_cons.mp hbefore
        cases hm.symm.trans hm'
        exact (ih him (hsound hj hm) hrest).mpr (h.2 m hm) before after k rfl hbefore

instance [∀ s e, Decidable (P s e)] : ∀ s events, Decidable (Along step P s events)
  | _, [] => isTrue trivial
  | s, e :: events =>
    match h : step s e with
    | none => decidable_of_iff (P s e)
        ⟨fun hp => ⟨hp, fun _ hs => by rw [h] at hs; cases hs⟩, And.left⟩
    | some m =>
      have := instDecidableAlong m events
      decidable_of_iff (P s e ∧ Along step P m events)
        ⟨fun ⟨hp, hm⟩ => ⟨hp, fun m' hs => by rw [h] at hs; cases hs; exact hm⟩,
          fun ⟨hp, hall⟩ => ⟨hp, hall m h⟩⟩

end Vprogs.Runs
