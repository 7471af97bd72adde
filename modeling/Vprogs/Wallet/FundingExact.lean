import Vprogs.Wallet.Funding

/-!
What the walk over the prefixes finds. An attempt that goes on to the next prefix has shown
that no layout of its own pays, with one exception: where the change output is what does not
fit, dropping it is not tried.
-/
namespace Vprogs.Wallet.Probe

variable {Tx : Type} {params : Params Tx} {candidates : List UtxoCell} {probe : Probe params candidates}
  {changeRequired : Bool} {n : Nat}

/-! ### One layout -/

theorem total_append (xs ys : List UtxoCell) : total (xs ++ ys) = total xs + total ys := by
  rw [total, List.map_append, List.sum_append]
  rfl

theorem brought_le (n : Nat) : probe.brought n ≤ total (probe.fixedInputs ++ candidates) := by
  have hsplit : total candidates = total (candidates.take n) + total (candidates.drop n) := by
    rw [← total_append, List.take_append_drop]
  rw [brought, total_append, total_append, hsplit]
  omega

theorem floor_kept (n c : Nat) : probe.floor n (some c) = probe.floor n (some 0) := by
  rw [floor, floor, probe.compute_kept, probe.transient_kept]

theorem storage_kept (n c : Nat) :
    (params.storageMass (probe.entries n) (probe.fixedOutputs ++ [⟨probe.changePlurality, c⟩])).getD U64_MAX =
      probe.storage n (some c) := by
  rw [storage, probe.run_kept]

theorem Kept.least_le {change fee least : Nat} (h : probe.Kept n change fee)
    (hleast : IsLeast {c | probe.Viable n c} least) :
    probe.floor n (some 0) + least ≤ probe.brought n - total probe.fixedOutputs := by
  have ⟨least', hleast', hle⟩ := h.viable
  have hbalance := h.balance
  have hfee := h.fee
  have heq := hleast.unique hleast'
  rw [floor_kept] at hfee
  omega

theorem Kept.viable_nonempty {change fee : Nat} (h : probe.Kept n change fee) : ∃ c, probe.Viable n c :=
  have ⟨least, hleast, _⟩ := h.viable
  ⟨least, hleast.1⟩

theorem Kept.floor_le {change fee : Nat} (h : probe.Kept n change fee) :
    probe.floor n (some 0) ≤ probe.brought n - total probe.fixedOutputs := by
  have ⟨_, hleast, _⟩ := h.viable
  exact Nat.le_trans (Nat.le_add_right _ _) (h.least_le hleast)

theorem Dropped.fee_eq {fee : Nat} (h : probe.Dropped n fee) :
    fee = probe.brought n - total probe.fixedOutputs := by
  have := h.balance
  omega

theorem Pays.admits {funding : Funding} (h : probe.Pays changeRequired funding) :
    probe.Admits changeRequired funding.inputs := by
  unfold Pays at h
  split at h
  · exact .inl ⟨_, _, h⟩
  · exact .inr ⟨h.1, _, h.2.1⟩

theorem Overlooked.admits (h : probe.Overlooked changeRequired n) : probe.Admits changeRequired n :=
  .inr ⟨h.droppable, h.dropped⟩

/-- What one attempt establishes: a funding that pays, or that nothing but an overlooked layout
does, with a record of what was missing. -/
def Attempted (probe : Probe params candidates) (changeRequired : Bool) (n : Nat) : ControlFlow → Prop
  | .stop funding =>
    funding.inputs = n ∧ probe.Pays changeRequired funding ∧ ¬ probe.Overlooked changeRequired n
  | .next walk =>
    walk.degraded = none ∧ (walk.shortfall.isSome ∨ walk.infeasible.isSome) ∧
      (probe.Admits changeRequired n → probe.Overlooked changeRequired n)

namespace Regular

variable (h : probe.Regular)
include h

theorem sum_entries (n : Nat) (change : Option Nat) : sumU64 (probe.run n change).2 = .ok (probe.brought n) := by
  have htotal : total (probe.run n change).2 = probe.brought n := by
    rw [probe.run_entries]
    exact ((probe.entries_perm n).map UtxoCell.amount).sum_nat
  have hle : probe.brought n ≤ _ := brought_le n
  have hfits := h.inputsFit
  rw [sumU64_eq]
  · exact congrArg _ htotal
  · show total _ < _
    omega

theorem sum_outputs (n : Nat) :
    sumU64 (params.outputs (probe.run n (some 0)).1) = .ok (total probe.fixedOutputs) := by
  have htotal : total (params.outputs (probe.run n (some 0)).1) = total probe.fixedOutputs := by
    rw [probe.run_kept, total_append]
    rfl
  have hfits := h.outputsFit
  rw [sumU64_eq]
  · exact congrArg _ htotal
  · show total _ < _
    omega

theorem minFee_eq (n : Nat) (change : Option Nat) :
    minFee params (probe.run n change).1 = .ok (probe.floor n change) :=
  mulU64_eq (h.floorFits n change)

theorem storage_dropped (n : Nat) : calcStorageMass params (probe.entries n) probe.fixedOutputs =
    .ok (probe.storage n none) := by
  rw [calcStorageMass_eq h.nonzero, storage, probe.run_dropped]

/-- The search for a change output ends at the least viable one. -/
theorem minViableChange_eq (n : Nat) :
    ∃ viable, minViableChange params (probe.entries n) (params.outputs (probe.run n (some 0)).1) = .ok viable ∧
      match viable with
      | some least => IsLeast {c | probe.Viable n c} least
      | none => ∀ c, ¬ probe.Viable n c := by
  rw [probe.run_kept]
  have ⟨viable, hrun, hspec⟩ := minViableChange_spec ⟨probe.changePlurality, 0⟩ h.nonzero (storage_kept n)
    (h.storageMono n)
  refine ⟨viable, hrun, ?_⟩
  cases viable with
  | some least =>
    have ⟨⟨hleast, hmin⟩, htop⟩ := hspec
    exact ⟨⟨hleast.1, htop, hleast.2⟩, fun c hc => hmin ⟨hc.1, hc.2.2⟩⟩
  | none => exact fun c hc => absurd hc.2.2 (Nat.not_le_of_lt (hspec c hc.1 hc.2.1))

/-! ### Which prefixes pay -/

/-- With the floor and the least change to spare, the change is what the floor leaves. -/
theorem kept_of_le {least : Nat} (hleast : IsLeast {c | probe.Viable n c} least)
    (hle : probe.floor n (some 0) + least ≤ probe.brought n - total probe.fixedOutputs) :
    probe.Kept n (probe.brought n - total probe.fixedOutputs - probe.floor n (some 0)) (probe.floor n (some 0)) where
  balance := by
    have hpos := h.floorPos n (some 0)
    omega
  fee := Nat.le_of_eq (floor_kept n _)
  storage := Nat.le_trans (h.storageMono n least _ hleast.1.1 (by omega)) hleast.1.2.2
  viable := ⟨least, hleast, by omega⟩

theorem dropped_of_le (hfloor : probe.floor n none ≤ probe.brought n - total probe.fixedOutputs)
    (hstorage : probe.storage n none ≤ params.storageLimit) :
    probe.Dropped n (probe.brought n - total probe.fixedOutputs) where
  balance := by
    have hpos := h.floorPos n none
    omega
  fee := hfloor
  storage := hstorage

/-! ### One attempt -/

theorem tryDropped_eq (walk : Walk) (n available : Nat) :
    tryDropped params .floor probe.run walk n available = .ok
      (if available < probe.floor n none then .next { walk with shortfall := some (available, probe.floor n none) }
      else if params.storageLimit < probe.storage n none then
        .next { walk with infeasible := some (.storageInfeasible (probe.storage n none) params.storageLimit) }
      else .stop ⟨n, available, none⟩) := by
  have hrequired : droppedRequiredFee params .floor (probe.run n none).1 (probe.run n none).2 =
      .ok ⟨probe.floor n none, probe.floor n none⟩ := by
    rw [droppedRequiredFee, h.minFee_eq]
    rfl
  have hstorage : calcStorageMass params (probe.run n none).2 (params.outputs (probe.run n none).1) =
      .ok (probe.storage n none) := by
    rw [probe.run_entries, probe.run_dropped, h.storage_dropped]
  unfold tryDropped
  dsimp only
  rw [hrequired, ok_bind]
  dsimp only
  split
  · rfl
  · rw [hstorage, ok_bind]
    split
    · rfl
    · rfl

/-- Without its change a prefix pays, or no layout of it does. -/
theorem tryDropped_spec {walk : Walk} (hwalk : walk.degraded = none) (hdroppable : changeRequired = false)
    (hkept : ∀ change fee, ¬ probe.Kept n change fee) (hseen : ¬ probe.Overlooked changeRequired n) :
    ∃ flow, tryDropped params .floor probe.run walk n (probe.brought n - total probe.fixedOutputs) = .ok flow ∧
      probe.Attempted changeRequired n flow := by
  refine ⟨_, h.tryDropped_eq walk n _, ?_⟩
  have hnone : (∀ fee, ¬ probe.Dropped n fee) → probe.Admits changeRequired n → probe.Overlooked changeRequired n :=
    fun hdropped hadmits => match hadmits with
      | .inl ⟨change, fee, hk⟩ => absurd hk (hkept change fee)
      | .inr ⟨_, fee, hd⟩ => absurd hd (hdropped fee)
  split
  · next hfloor =>
    refine ⟨hwalk, .inl rfl, hnone fun fee hd => ?_⟩
    have hfee := hd.fee
    rw [hd.fee_eq] at hfee
    omega
  · next hfloor =>
    split
    · next hstorage => exact ⟨hwalk, .inr rfl, hnone fun fee hd => absurd hd.storage (Nat.not_le_of_lt hstorage)⟩
    · next hstorage =>
      have hd := h.dropped_of_le (Nat.not_lt.mp hfloor) (Nat.not_lt.mp hstorage)
      exact ⟨rfl, ⟨hdroppable, hd, hkept⟩, hseen⟩

theorem recordInfeasible_eq (walk : Walk) (n : Nat) :
    recordInfeasible params walk (probe.entries n) (params.outputs (probe.run n (some 0)).1) =
      .ok (.next { walk with
        infeasible := some (.storageInfeasible (probe.storage n none) params.storageLimit) }) := by
  rw [recordInfeasible, probe.run_kept, List.getLast?_concat, List.dropLast_concat, h.storage_dropped]
  rfl

theorem attempt_spec {walk : Walk} (hwalk : walk.degraded = none) (changeRequired : Bool) (n : Nat) :
    ∃ flow, attempt params .floor changeRequired probe.run walk n = .ok flow ∧
      probe.Attempted changeRequired n flow := by
  have hpos := h.floorPos n (some 0)
  unfold attempt
  dsimp only
  rw [h.sum_entries, ok_bind, h.sum_outputs, ok_bind, h.minFee_eq, ok_bind, probe.run_entries]
  split
  · next hshort =>
    -- the floor of the layout with change is out of reach
    have hkept : ∀ change fee, ¬ probe.Kept n change fee := fun change fee hk => by
      have := hk.floor_le
      omega
    have hseen : ¬ probe.Overlooked changeRequired n := fun ho => by
      have := ho.floor
      omega
    cases changeRequired with
    | true =>
      refine ⟨_, rfl, hwalk, .inl rfl, fun hadmits => ?_⟩
      match hadmits with
      | .inl ⟨change, fee, hk⟩ => exact absurd hk (hkept change fee)
    | false => exact h.tryDropped_spec hwalk rfl hkept hseen
  · next hfloor =>
    have ⟨viable, hviable, hspec⟩ := h.minViableChange_eq n
    rw [hviable, ok_bind]
    cases viable with
    | none =>
      refine ⟨_, h.recordInfeasible_eq walk n, hwalk, .inr rfl, fun hadmits => ?_⟩
      match hadmits with
      | .inl ⟨change, fee, hk⟩ =>
        have ⟨c, hc⟩ := hk.viable_nonempty
        exact absurd hc (hspec c)
      | .inr ⟨hdroppable, hdropped⟩ => exact ⟨hdroppable, hdropped, by omega, hspec⟩
    | some least =>
      have hleast : IsLeast {c | probe.Viable n c} least := hspec
      have hseen : ¬ probe.Overlooked changeRequired n := fun ho => ho.unviable least hleast.1
      dsimp only
      unfold requiredFee
      split
      · next hcap =>
        have hkept : ∀ change fee, ¬ probe.Kept n change fee := fun change fee hk => by
          have := hk.least_le hleast
          omega
        rw [ok_bind]
        dsimp only
        unfold crossed
        cases changeRequired with
        | true =>
          refine ⟨_, rfl, hwalk, .inl rfl, fun hadmits => ?_⟩
          match hadmits with
          | .inl ⟨change, fee, hk⟩ => exact absurd hk (hkept change fee)
        | false => exact h.tryDropped_spec hwalk rfl hkept hseen
      · next hcap =>
        have hle : probe.floor n (some 0) + least ≤ probe.brought n - total probe.fixedOutputs := by omega
        rw [ok_bind]
        dsimp only
        rw [subU64_eq (Nat.not_lt.mp hfloor), ok_bind]
        exact ⟨_, rfl, rfl, h.kept_of_le hleast hle, hseen⟩

/-! ### The walk -/

/-- The walk over the prefixes from `k` on stops at the first that pays and is not overlooked. -/
theorem walkPrefixes_spec (changeRequired : Bool) {count k : Nat} {walk : Walk} (hwalk : walk.degraded = none)
    (hrecord : 0 < count ∨ walk.shortfall.isSome ∨ walk.infeasible.isSome) :
    Safe (fun _ => ∀ n, k ≤ n → n < k + count → probe.Admits changeRequired n → probe.Overlooked changeRequired n)
      (fun funding => (k ≤ funding.inputs ∧ funding.inputs < k + count) ∧ probe.Pays changeRequired funding ∧
        ¬ probe.Overlooked changeRequired funding.inputs ∧
        ∀ n, k ≤ n → n < funding.inputs → probe.Admits changeRequired n → probe.Overlooked changeRequired n)
      (walkPrefixes params .floor changeRequired probe.run (List.range' k count) walk) := by
  induction count generalizing k walk with
  | zero =>
    have hnone : ∀ n, k ≤ n → n < k + 0 → probe.Admits changeRequired n → probe.Overlooked changeRequired n := by
      intro n hk hn
      omega
    obtain ⟨shortfall, infeasible, degraded⟩ := walk
    cases hwalk
    rw [List.range'_zero, walkPrefixes, Walk.conclude]
    match shortfall, infeasible, hrecord with
    | some _, _, _ => exact hnone
    | none, some _, _ => exact hnone
    | none, none, hrecord => simp at hrecord
  | succ count ih =>
    have ⟨flow, hattempt, hspec⟩ := h.attempt_spec hwalk changeRequired k
    rw [List.range'_succ, walkPrefixes, hattempt, ok_bind]
    cases flow with
    | stop funding =>
      have ⟨hinputs, hpays, hseen⟩ := hspec
      subst hinputs
      refine ⟨⟨Nat.le_refl _, by omega⟩, hpays, hseen, fun n hk hn => ?_⟩
      omega
    | next walk =>
      have ⟨hwalk, hrecord, hadmits⟩ := hspec
      have hfrom : ∀ n, k ≤ n → (k + 1 ≤ n → probe.Admits changeRequired n → probe.Overlooked changeRequired n) →
          probe.Admits changeRequired n → probe.Overlooked changeRequired n := by
        intro n hk hrest
        rcases Nat.eq_or_lt_of_le hk with heq | hlt
        · subst heq
          exact hadmits
        · exact hrest hlt
      refine (ih hwalk (.inr hrecord)).imp (fun _ hall n hk hn => ?_) (fun funding hfunding => ?_)
      · exact hfrom n hk fun hlt => hall n hlt (by omega)
      · have ⟨⟨hlow, hhigh⟩, hpays, hseen, hbefore⟩ := hfunding
        exact ⟨⟨by omega, by omega⟩, hpays, hseen, fun n hk hn => hfrom n hk fun hlt => hbefore n hlt hn⟩

end Regular

/-- Where every overlooked prefix stands behind one that pays, and only overlooked ones pay,
none does. -/
theorem not_admits_of_overlooked {bound : Nat}
    (hpass : ∀ n, 1 ≤ n → n < bound → probe.Admits changeRequired n → probe.Overlooked changeRequired n)
    (hzero : ¬ probe.Admits changeRequired 0)
    (hahead : ∀ n, 1 ≤ n → n < bound → probe.Overlooked changeRequired n →
      ∃ m, 1 ≤ m ∧ m < n ∧ probe.Admits changeRequired m) :
    ∀ n < bound, ¬ probe.Admits changeRequired n := by
  intro n
  induction n using Nat.strongRecOn with
  | ind n ih =>
    intro hn hadmits
    cases n with
    | zero => exact hzero hadmits
    | succ n =>
      have ⟨m, _, hlt, hm⟩ := hahead _ (Nat.succ_pos n) hn (hpass _ (Nat.succ_pos n) hn hadmits)
      exact ih m hlt (Nat.lt_trans hlt hn) hm

theorem fund_empty (h : probe.Regular) (changeRequired : Bool) (hempty : candidates = []) :
    ∃ required, fund params .floor changeRequired probe.run candidates =
      .error (.err (.insufficientFunds 0 required)) := by
  subst hempty
  refine ⟨probe.floor 0 (if changeRequired then some 0 else none), (if_pos rfl).trans ?_⟩
  dsimp only
  rw [h.minFee_eq, ok_bind]

theorem fund_nonempty (changeRequired : Bool) (hne : candidates ≠ []) :
    fund params .floor changeRequired probe.run candidates =
      walkPrefixes params .floor changeRequired probe.run (List.range' 1 candidates.length) .new := by
  refine if_neg ?_
  rw [List.isEmpty_iff]
  exact hne

/-- Funding at the floor never panics. It finds the shortest prefix that pays, and an error
means that none does, exactly if the fixed inputs alone do not pay and every prefix whose
change is what does not fit, but which would pay without it, stands behind one that pays. -/
theorem fund_floor_iff (h : probe.Regular) (changeRequired : Bool) :
    Reports (fun _ => True) (fund params .floor changeRequired probe.run candidates) ∧
    (Safe (fun _ => ∀ n ≤ candidates.length, ¬ probe.Admits changeRequired n) (probe.PaysShortest changeRequired)
        (fund params .floor changeRequired probe.run candidates) ↔
      ¬ probe.Admits changeRequired 0 ∧
        ∀ n, 1 ≤ n → n ≤ candidates.length → probe.Overlooked changeRequired n →
          ∃ m, 1 ≤ m ∧ m < n ∧ probe.Admits changeRequired m) := by
  by_cases hempty : candidates = []
  · have ⟨required, hfund⟩ := fund_empty h changeRequired hempty
    rw [hfund]
    have hlen : candidates.length = 0 := by rw [hempty]; rfl
    refine ⟨trivial, fun hsafe => ⟨hsafe 0 (Nat.zero_le _), fun n hlow hhigh => ?_⟩, fun ⟨hzero, _⟩ n hn => ?_⟩
    · omega
    · have hn : n = 0 := by omega
      rw [hn]
      exact hzero
  · have hlen : 0 < candidates.length := List.length_pos_iff.mpr hempty
    have hnew : Walk.new.degraded = none := rfl
    have hspec := h.walkPrefixes_spec changeRequired (k := 1) hnew (.inl hlen)
    rw [fund_nonempty changeRequired hempty]
    refine ⟨hspec.imp (fun _ _ => trivial) (fun _ _ => trivial), ?_⟩
    generalize walkPrefixes params .floor changeRequired probe.run (List.range' 1 candidates.length) .new = result
      at hspec
    match result, hspec with
    | .ok funding, hspec =>
      have ⟨⟨hlow, hhigh⟩, hpays, hseen, hbefore⟩ := hspec
      refine ⟨fun hsafe => ⟨hsafe.2.2 0 hlow, fun n hn _ hover => ⟨funding.inputs, hlow, ?_, hpays.admits⟩⟩,
        fun ⟨hzero, hahead⟩ => ⟨by omega, hpays, ?_⟩⟩
      · -- a prefix before the one found pays nothing, and the one found is not overlooked
        rcases Nat.lt_trichotomy n funding.inputs with hlt | heq | hgt
        · exact absurd hover.admits (hsafe.2.2 n hlt)
        · exact absurd (heq ▸ hover) hseen
        · exact hgt
      · exact not_admits_of_overlooked hbefore hzero fun n hn hlt => hahead n hn (by omega)
    | .error (.err e), hspec =>
      refine ⟨fun hsafe => ⟨hsafe 0 (Nat.zero_le _), fun n _ hhigh hover => absurd hover.admits (hsafe n hhigh)⟩,
        fun ⟨hzero, hahead⟩ n hn => ?_⟩
      have hnone : ∀ n < 1 + candidates.length, ¬ probe.Admits changeRequired n :=
        not_admits_of_overlooked hspec hzero fun n hn hlt => hahead n hn (by omega)
      exact hnone n (by omega)

end Vprogs.Wallet.Probe

namespace Vprogs.Wallet.Sample

def harmonic (cells : List UtxoCell) : Nat :=
  (cells.map fun cell => 10 ^ 12 * cell.plurality * cell.plurality / cell.amount).sum

def pluralities (cells : List UtxoCell) : Nat := (cells.map UtxoCell.plurality).sum

/-- Storage mass as the node counts it: the inputs' credit is harmonic for small layouts and
arithmetic for others. -/
def storageMass (inputs outputs : List UtxoCell) : Nat :=
  if pluralities outputs = 1 ∨ pluralities inputs = 1 ∨ pluralities outputs = 2 ∧ pluralities inputs = 2 then
    harmonic outputs - harmonic inputs
  else harmonic outputs - pluralities inputs * (10 ^ 12 / (total inputs / pluralities inputs))

/-- Transactions are their outputs. -/
def params (limit : Nat) : Params (List UtxoCell) where
  outputs := id
  computeMass := fun tx => 1000 * tx.length
  normalizedTransient := fun _ => 0
  normalizedMax := max ∘ List.length
  storageMass := fun inputs outputs => some (storageMass inputs outputs)
  storageLimit := limit
  maxSompi := 2900000000000000000
  maxSompi_pos := by decide
  maxSompi_lt := by decide

def payouts : List UtxoCell := [⟨1, 1666666⟩, ⟨1, 1000000000⟩]

def candidates : List UtxoCell := [⟨1, 10000000000⟩, ⟨1, 5000000⟩]

/-- Two payouts and a change output. -/
def probe (limit : Nat) : Probe (params limit) candidates where
  run := fun n change => (payouts ++ (change.map (UtxoCell.mk 1)).toList, candidates.take n)
  fixedInputs := []
  fixedOutputs := payouts
  changePlurality := 1
  entries := candidates.take
  entries_perm := fun _ => List.Perm.refl _
  run_entries := fun _ _ => rfl
  run_kept := fun _ _ => rfl
  run_dropped := fun _ => rfl
  compute_kept := fun _ _ => rfl
  transient_kept := fun _ _ => rfl

variable {limit : Nat}

theorem harmonic_kept (c : Nat) : harmonic (payouts ++ [⟨1, c⟩]) = 601000 + 10 ^ 12 / c := by
  simp [harmonic, payouts]
  omega

/-- What the inputs of a prefix take off the storage mass of three outputs. -/
def credit (inputs : List UtxoCell) : Nat :=
  if pluralities inputs = 1 then harmonic inputs
  else pluralities inputs * (10 ^ 12 / (total inputs / pluralities inputs))

theorem storage_some (n c : Nat) : (probe limit).storage n (some c) = 601000 + 10 ^ 12 / c - credit (candidates.take n) := by
  show storageMass (candidates.take n) (payouts ++ [⟨1, c⟩]) = _
  have hthree : pluralities (payouts ++ [⟨1, c⟩]) = 3 := rfl
  rw [storageMass, hthree, harmonic_kept, credit]
  by_cases hone : pluralities (candidates.take n) = 1
  · rw [if_pos (.inr (.inl hone)), if_pos hone]
  · rw [if_neg (by omega), if_neg hone]

theorem take_eq (n : Nat) : candidates.take n = [] ∨ candidates.take n = candidates.take 1 ∨ candidates.take n = candidates := by
  match n with
  | 0 => exact .inl rfl
  | 1 => exact .inr (.inl rfl)
  | n + 2 => exact .inr (.inr (List.take_of_length_le (Nat.le_add_left 2 n)))

theorem floor_none (n : Nat) : (probe limit).floor n none = 200000 := by
  simp [Probe.floor, probe, params, payouts, MIN_FEERATE_PER_GRAM]

theorem floor_some (n c : Nat) : (probe limit).floor n (some c) = 300000 := by
  simp [Probe.floor, probe, params, payouts, MIN_FEERATE_PER_GRAM]

theorem probe_regular (limit : Nat) : (probe limit).Regular where
  nonzero := show ∀ o ∈ payouts, o.amount ≠ 0 by decide
  inputsFit := show total candidates < 2 ^ 64 by decide
  outputsFit := show total payouts < 2 ^ 64 by decide
  floorPos := by
    intro n change
    cases change with
    | none => rw [floor_none]; decide
    | some c => rw [floor_some]; decide
  floorFits := by
    intro n change
    cases change with
    | none => rw [floor_none]; decide
    | some c => rw [floor_some]; decide
  storageMono := by
    intro n c c' hc hle
    rw [storage_some, storage_some]
    exact Nat.sub_le_sub_right (Nat.add_le_add_left (Nat.div_le_div_left hle hc) _) _
  storageDropped := by
    intro n c hc
    rw [storage_some]
    show storageMass (candidates.take n) payouts ≤ _
    refine Nat.le_trans ?_ (Nat.sub_le_sub_right (Nat.le_add_right 601000 (10 ^ 12 / c)) _)
    rcases take_eq n with hn | hn | hn <;> rw [hn] <;> decide +kernel

/-- The change is what does not fit: without it the second prefix pays, and the error reports
a storage mass within the limit it is said to exceed. -/
theorem fund_overlooks_dropped_change :
    (probe 500000).Regular ∧ (probe 500000).Admits false 2 ∧
      fund (params 500000) .floor false (probe 500000).run candidates =
        .error (.err (.storageInfeasible 400900 500000)) := by
  refine ⟨probe_regular 500000, .inr ⟨rfl, 9003333334, ?_, ?_, ?_⟩, by decide +kernel⟩
  · decide
  · decide
  · show storageMass candidates payouts ≤ 500000
    decide +kernel

/-- With the change required there is nothing to overlook: where the change does not fit no
prefix pays, and under a higher limit the first one pays and keeps its change. -/
theorem fund_floor_required :
    (probe 500000).Regular ∧ (probe 700000).Regular ∧
      Safe (fun _ => ∀ n ≤ candidates.length, ¬ (probe 500000).Admits true n) ((probe 500000).PaysShortest true)
        (fund (params 500000) .floor true (probe 500000).run candidates) ∧
      fund (params 700000) .floor true (probe 700000).run candidates = .ok ⟨1, 300000, some 8998033334⟩ ∧
      (probe 700000).PaysShortest true ⟨1, 300000, some 8998033334⟩ := by
  have hsafe : ∀ limit, Safe (fun _ => ∀ n ≤ candidates.length, ¬ (probe limit).Admits true n)
      ((probe limit).PaysShortest true) (fund (params limit) .floor true (probe limit).run candidates) := by
    intro limit
    refine (Probe.fund_floor_iff (probe_regular limit) true).2.mpr ⟨?_, fun n _ _ hover => ?_⟩
    · rintro (⟨change, fee, hkept⟩ | ⟨hdrop, _⟩)
      · have hbalance : 0 = 1001666666 + change + fee := hkept.balance
        omega
      · cases hdrop
    · cases hover.droppable
  have hpaid : fund (params 700000) .floor true (probe 700000).run candidates =
      .ok ⟨1, 300000, some 8998033334⟩ := by
    decide +kernel
  exact ⟨probe_regular _, probe_regular _, hsafe _, hpaid, (hsafe 700000).of_ok hpaid⟩

end Vprogs.Wallet.Sample
