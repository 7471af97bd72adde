import Vprogs.Runtime.Total

/-!
What each action does when it succeeds: one inversion per action, with every
check it passed and the context it leaves.
-/
namespace Vprogs.Runtime

open Abi

/-! ### Writes to one resource -/

theorem setData_resize (r : Resource) (newLen : Nat) (data : Bytes) :
    (r.resize newLen).setData data = r.setData data := by
  unfold Resource.resize
  split
  · rfl
  · split <;> rfl

/-- The bytes of a user with the given fields. -/
def userBytes (balance : UInt64) (initialLockHash : Hash) (lock : LockEnum) : Bytes :=
  Raw.toBytes ⟨KIND_USER, balance, initialLockHash, lock.tag, lock.body⟩

def configBytes (min : UInt64) (covenantId : Hash) (lock : LockEnum) : Bytes :=
  Raw.toBytes ⟨KIND_CONFIG, min, covenantId, lock.tag, lock.body⟩

theorem writeNewState_eq (target : Resource) (min : UInt64) (covenantId : Hash) (lock : LockEnum) :
    writeNewState target min covenantId lock =
      .ok (target.setData (configBytes min covenantId lock)) := by
  unfold writeNewState
  dsimp only
  split
  · rw [writeConfig, writeRaw_eq (length_resize _ _)]
    exact congrArg Except.ok (setData_resize _ _ _)
  · next h =>
    rw [not_or, not_not] at h
    rw [writeConfig, writeRaw_eq h.2]
    rfl

theorem initUser_eq_ok {r r' : Resource} {balance : UInt64} {ilh : Hash} {lock : LockEnum} :
    initUser r balance ilh lock = .ok r' ↔
      r.data = [] ∧ r' = r.setData (userBytes balance ilh lock) := by
  unfold initUser
  split
  · next h =>
    simp only [err_ne_ok, false_iff, not_and]
    intro hnil
    simp [hnil] at h
  · next h =>
    have hnil : r.data = [] := by simpa using h
    dsimp only
    rw [writeUser, writeRaw_eq (length_resize _ _)]
    change Except.ok ((r.resize _).setData _) = _ ↔ _
    rw [setData_resize, Except.ok.injEq, eq_comm]
    exact ⟨fun h => ⟨hnil, h⟩, fun h => h.2⟩

theorem setUserLock_eq_ok {r r' : Resource} {lock : LockEnum} (h : setUserLock r lock = .ok r') :
    ∃ view, UserView.fromBytes r.data = .ok view ∧
      r' = r.setData (userBytes view.amount view.digest lock) := by
  unfold setUserLock at h
  split at h
  · simp at h
  · simp only [ok_bind_iff, orErr_eq_ok] at h
    obtain ⟨view, hview, data, hdata, hr⟩ := h
    rw [writeUser, writeRaw_eq (length_resize _ _)] at hdata
    cases hdata
    cases hr
    exact ⟨view, hview, setData_resize _ _ _⟩

theorem modifiedUser_eq_ok {r r' : Resource} {f : UInt64 → Except String UInt64} {absent : String} :
    modifiedUser r f absent = .ok r' ↔
      ∃ raw balance, viewUser r = some raw ∧ f raw.amount = .ok balance ∧
        r' = r.setData { raw with amount := balance }.toBytes := by
  simp only [modifiedUser, ok_bind_iff, okOr_eq_ok, orErr_eq_ok, modifyUser]
  cases hview : viewUser r with
  | none => simp
  | some raw =>
    simp only [Option.some.injEq, exists_eq_left', exists_and_left]
    cases hf : f raw.amount with
    | ok balance =>
      simp only [Except.ok.injEq, exists_eq_left']
      exact ⟨fun h => by cases h; rfl, fun h => by rw [h]; rfl⟩
    | error msg => simp

theorem checkedAdd_eq_ok {a b c : UInt64} {msg : String} :
    checkedAdd a b msg = .ok c ↔ a.toNat + b.toNat < 2 ^ 64 ∧ c = a + b := by
  unfold checkedAdd
  split
  · next h =>
    rw [Except.ok.injEq, eq_comm]
    exact ⟨fun hc => ⟨h, hc⟩, fun hc => hc.2⟩
  · next h => exact ⟨fun hc => (nomatch hc), fun hc => absurd hc.1 h⟩

theorem checkedSub_eq_ok {a b c : UInt64} {msg : String} :
    checkedSub a b msg = .ok c ↔ b ≤ a ∧ c = a - b := by
  unfold checkedSub
  split
  · next h => simp [h, eq_comm]
  · next h => simp [h]

theorem markCreated_eq_ok {cx cx' : ApplyContext} {idx : Nat} (h : cx.markCreated idx = .ok cx') :
    cx.lifecycle[idx]? = some .new ∧ cx' = { cx with lifecycle := cx.lifecycle.set idx .live } := by
  simp only [ApplyContext.markCreated, ok_bind_iff, ApplyContext.lifecycleAt, orPanic_eq_ok,
    orErr_eq_ok] at h
  have ⟨state, hstate, state', hstate', hcx⟩ := h
  cases hcx
  cases state with
  | new => cases hstate'; exact ⟨hstate, rfl⟩
  | live => cases hstate'
  | deleted => cases hstate'

theorem userUnlocked_eq_ok {auth : AuthContext} {r : Resource} {idx : UInt8} {absent : String}
    (h : userUnlocked auth r idx absent = .ok true) :
    ∃ view lock, viewUser r = some view ∧ view.lock = .ok lock ∧ lock.unlock idx auth = .ok true := by
  simp only [userUnlocked, ok_bind_iff, okOr_eq_ok] at h
  obtain ⟨view, hview, lock, hlock, hunlock⟩ := h
  exact ⟨view, lock, hview, hlock, hunlock⟩

/-! ### One inversion per action -/

section

variable {P : Primitives} {auth : AuthContext} {cx cx' : ApplyContext}

theorem applyUpdate_eq_ok {idx : UInt8} {min : UInt64} {covenantId : Hash} {lock : LockEnum}
    (h : applyUpdate P auth idx min covenantId lock cx = .ok cx') :
    ∃ target cur curLock, cx.resources[idx.toNat]? = some target ∧
      target.id = configResourceId P ∧ cx.lifecycle[idx.toNat]? = some .live ∧
      ConfigView.fromBytes target.data = .ok cur ∧ covenantId = cur.digest ∧
      cur.lock = .ok curLock ∧ curLock.unlock idx auth = .ok true ∧
      cx' = cx.setResource idx.toNat (target.setData (configBytes min covenantId lock)) := by
  simp only [applyUpdate, ok_bind_iff, ApplyContext.resource, orPanic_eq_ok] at h
  obtain ⟨target, htarget, h⟩ := h
  split at h
  · simp at h
  · next hid =>
    simp only [ok_bind_iff, ApplyContext.lifecycleAt, orPanic_eq_ok] at h
    obtain ⟨state, hstate, h⟩ := h
    split at h
    · simp at h
    · simp at h
    · simp only [ok_bind_iff, orErr_eq_ok] at h
      obtain ⟨cur, hcur, h⟩ := h
      split at h
      · simp at h
      · next hcov =>
        simp only [ok_bind_iff] at h
        obtain ⟨curLock, hlock, ok, hok, h⟩ := h
        split at h
        · simp at h
        · next htrue =>
          have htrue' : ok = true := by simpa using htrue
          subst htrue'
          simp only [ok_bind_iff, writeNewState_eq] at h
          obtain ⟨target', htarget', hcx⟩ := h
          cases htarget'
          cases hcx
          exact ⟨target, cur, curLock, htarget, not_not.mp hid, hstate, hcur, not_not.mp hcov,
            hlock, hok, rfl⟩

theorem applyInit_eq_ok {idx : UInt8} {min : UInt64} {covenantId : Hash} {lock : LockEnum}
    (h : applyInit P auth idx min covenantId lock cx = .ok cx') :
    ∃ target, cx.resources[idx.toNat]? = some target ∧ target.id = configResourceId P ∧
      cx.lifecycle[idx.toNat]? = some .new ∧
      (LockEnum.schnorr GENESIS_SCHNORR_BYTES).unlock idx auth = .ok true ∧
      cx' = { cx.setResource idx.toNat (target.setData (configBytes min covenantId lock)) with
        lifecycle := cx.lifecycle.set idx.toNat .live } := by
  simp only [applyInit, ok_bind_iff, ApplyContext.resource, orPanic_eq_ok] at h
  obtain ⟨target, htarget, h⟩ := h
  split at h
  · simp at h
  · next hid =>
    simp only [ok_bind_iff, ApplyContext.lifecycleAt, orPanic_eq_ok] at h
    obtain ⟨state, hstate, h⟩ := h
    split at h
    · simp at h
    · next hnew =>
      simp only [ok_bind_iff] at h
      obtain ⟨ok, hok, h⟩ := h
      split at h
      · simp at h
      · next htrue =>
        have htrue' : ok = true := by simpa using htrue
        subst htrue'
        simp only [ok_bind_iff, writeNewState_eq] at h
        obtain ⟨target', htarget', hcx⟩ := h
        cases htarget'
        obtain ⟨_, hcx'⟩ := markCreated_eq_ok hcx
        exact ⟨target, htarget, not_not.mp hid, not_not.mp hnew ▸ hstate, hok, hcx'⟩

/-- The destination of a transfer after the credit: a new user whose slot is its
lock's, or the old user with a larger balance. -/
inductive Credited (P : Primitives) (amount : UInt64) (destInit : Option LockEnum) (dst : Resource) :
    Lifecycle → Resource → Prop
  | created (lock : LockEnum) (hlock : destInit = some lock)
      (hid : dst.id = deriveUserResource P (lock.idHash P)) (hmin : MIN_CREATE_BALANCE ≤ amount)
      (hempty : dst.data = []) :
      Credited P amount destInit dst .new (dst.setData (userBytes amount (lock.idHash P) lock))
  | credited (raw : Raw) (hview : viewUser dst = some raw)
      (hsum : raw.amount.toNat + amount.toNat < 2 ^ 64) :
      Credited P amount destInit dst .live
        (dst.setData { raw with amount := raw.amount + amount }.toBytes)

theorem validateUserCreate_eq_ok {slotId : ResourceId} {lock : LockEnum} {funding : UInt64} {ilh : Hash} :
    validateUserCreate P slotId lock funding = .ok ilh ↔
      slotId = deriveUserResource P (lock.idHash P) ∧ MIN_CREATE_BALANCE ≤ funding ∧
        ilh = lock.idHash P := by
  unfold validateUserCreate
  dsimp only
  split
  · next h => exact ⟨fun hc => by simp at hc, fun hc => absurd hc.1 h⟩
  · next h =>
    split
    · next hlt => exact ⟨fun hc => by simp at hc, fun hc => absurd hlt (UInt64.not_lt.mpr hc.2.1)⟩
    · next hlt =>
      rw [Except.ok.injEq, eq_comm]
      exact ⟨fun hc => ⟨not_not.mp h, UInt64.not_lt.mp hlt, hc⟩, fun hc => hc.2.2⟩

theorem applyTransfer_eq_ok {src dst : UInt8} {amount : UInt64} {destInit : Option LockEnum}
    (h : applyTransfer P auth src dst amount destInit cx = .ok cx') :
    src ≠ dst ∧ ∃ state srcR dstR view lock dstR', cx.lifecycle[dst.toNat]? = some state ∧
      cx.resources[src.toNat]? = some srcR ∧ cx.resources[dst.toNat]? = some dstR ∧
      viewUser srcR = some view ∧ view.lock = .ok lock ∧ lock.unlock src auth = .ok true ∧
      amount ≤ view.amount ∧ Credited P amount destInit dstR state dstR' ∧
      cx' = { (cx.setResource src.toNat
          (srcR.setData { view with amount := view.amount - amount }.toBytes)).setResource
            dst.toNat dstR' with
        lifecycle := if state = .new then cx.lifecycle.set dst.toNat .live else cx.lifecycle } := by
  unfold applyTransfer at h
  split at h
  · simp at h
  · next hne =>
    refine ⟨hne, ?_⟩
    simp only [ok_bind_iff, ApplyContext.lifecycleAt, orPanic_eq_ok, okOr_eq_ok] at h
    obtain ⟨state, hstate, create, hcreate, srcR, hsrc, dstR, hdst, ok, hok, h⟩ := h
    split at h
    · simp at h
    · next htrue =>
      have htrue' : ok = true := by simpa using htrue
      subst htrue'
      obtain ⟨view, lock, hview, hlock, hunlock⟩ := userUnlocked_eq_ok hok
      simp only [ok_bind_iff] at h
      obtain ⟨plan, hplan, srcR', hsrc', dstR', hdst', h⟩ := h
      obtain ⟨raw, balance, hraw, hbal, hsrcR'⟩ := modifiedUser_eq_ok.mp hsrc'
      rw [hview] at hraw
      cases hraw
      obtain ⟨hle, hbalance⟩ := checkedSub_eq_ok.mp hbal
      subst hbalance hsrcR'
      refine ⟨state, srcR, dstR, view, lock, dstR', hstate, hsrc, hdst, hview, hlock, hunlock,
        hle, ?_⟩
      cases state with
      | new =>
        cases hcreate
        simp only [createPlan, if_true, ok_bind_iff, okOr_eq_ok, validateUserCreate_eq_ok] at hplan
        obtain ⟨newLock, hinit, ilh, ⟨hid, hmin, hilh⟩, hpure⟩ := hplan
        cases hpure
        subst hilh
        obtain ⟨hempty, hdstR'⟩ := initUser_eq_ok.mp hdst'
        subst hdstR'
        exact ⟨.created newLock hinit hid hmin hempty, (markCreated_eq_ok h).2⟩
      | live =>
        cases hcreate
        cases hplan
        obtain ⟨raw, balance, hraw, hadd, hdstR'⟩ := modifiedUser_eq_ok.mp hdst'
        obtain ⟨hsum, hbalance⟩ := checkedAdd_eq_ok.mp hadd
        subst hdstR' hbalance
        cases h
        exact ⟨.credited raw hraw hsum, rfl⟩
      | deleted => cases hcreate

theorem applyUpdateUserLock_eq_ok {idx : UInt8} {newLock : LockEnum}
    (h : applyUpdateUserLock auth idx newLock cx = .ok cx') :
    ∃ target view lock, cx.resources[idx.toNat]? = some target ∧ viewUser target = some view ∧
      view.lock = .ok lock ∧ lock.unlock idx auth = .ok true ∧
      cx' = cx.setResource idx.toNat (target.setData (userBytes view.amount view.digest newLock)) := by
  simp only [applyUpdateUserLock, ok_bind_iff, ApplyContext.resource, orPanic_eq_ok] at h
  have ⟨target, htarget, ok, hok, h⟩ := h
  split at h
  · simp at h
  · next htrue =>
    have htrue' : ok = true := by simpa using htrue
    subst htrue'
    have ⟨view, lock, hview, hlock, hunlock⟩ := userUnlocked_eq_ok hok
    simp only [ok_bind_iff] at h
    have ⟨target', htarget', hcx⟩ := h
    cases hcx
    have ⟨view', hview', hset⟩ := setUserLock_eq_ok htarget'
    rw [viewUser_eq_some hview] at hview'
    cases hview'
    exact ⟨target, view, lock, htarget, hview, hlock, hunlock, by rw [hset]⟩

theorem depositOutput_eq_ok {tx : Transaction} {outputIdx : UInt32} {out : OutputData} :
    depositOutput tx outputIdx = .ok out ↔ parseOutputAtIndexV1 tx.restPreimage outputIdx = .ok out := by
  unfold depositOutput
  cases parseOutputAtIndexV1 tx.restPreimage outputIdx <;> simp

theorem applyDeposit_eq_ok {idx : UInt8} {outputIdx : UInt32} {lock : LockEnum}
    (h : applyDeposit P idx outputIdx lock cx = .ok cx') :
    outputIdx ∉ cx.consumedOutputs ∧ ∃ config out state target target' deposit,
      findConfig P cx.resources = some config ∧
      parseOutputAtIndexV1 cx.tx.restPreimage outputIdx = .ok out ∧
      out.spkVersion = 0 ∧ out.spk = depositSpk P config.digest ∧
      cx.lifecycle[idx.toNat]? = some state ∧ cx.resources[idx.toNat]? = some target ∧
      cx.deposit.set (delegateEntrySpkHash P config.digest) = .ok deposit ∧
      Credited P out.value (some lock) target state target' ∧
      (∀ raw, state = .live → viewUser target = some raw → raw.digest = lock.idHash P) ∧
      cx' = { cx.setResource idx.toNat target' with
        lifecycle := if state = .new then cx.lifecycle.set idx.toNat .live else cx.lifecycle
        deposit := deposit
        consumedOutputs := cx.consumedOutputs ++ [outputIdx] } := by
  unfold applyDeposit at h
  split at h
  · simp at h
  · next hfresh =>
    refine ⟨hfresh, ?_⟩
    simp only [ok_bind_iff, okOr_eq_ok, depositOutput_eq_ok] at h
    obtain ⟨config, hconfig, out, hout, h⟩ := h
    split at h
    · simp at h
    · next hspk =>
      rw [not_or, not_not, not_not] at hspk
      split at h
      · simp at h
      · simp only [ok_bind_iff, ApplyContext.lifecycleAt, ApplyContext.resource, orPanic_eq_ok,
          lift_eq_ok] at h
        obtain ⟨state, hstate, target, htarget, kind, hkind, deposit, hdeposit, h⟩ := h
        cases state with
        | new =>
          simp only [creditKind, ok_bind_iff, validateUserCreate_eq_ok] at hkind
          obtain ⟨ilh, ⟨hid, hmin, hilh⟩, hpure⟩ := hkind
          cases hpure
          subst hilh
          simp only [ok_bind_iff, orPanic_eq_ok] at h
          obtain ⟨cx₁, hcx₁, target₁, htarget₁, target₂, htarget₂, hcx⟩ := h
          have hmark := (markCreated_eq_ok hcx₁).2
          subst hmark
          rw [htarget] at htarget₁
          cases htarget₁
          obtain ⟨hempty, hset⟩ := initUser_eq_ok.mp htarget₂
          subst hset
          cases hcx
          exact ⟨config, out, .new, target, _, deposit, hconfig, hout, hspk.1, hspk.2, hstate,
            htarget, hdeposit, .created lock rfl hid hmin hempty,
            fun _ hlive => (by cases hlive), rfl⟩
        | live =>
          simp only [creditKind, ok_bind_iff, okOr_eq_ok] at hkind
          obtain ⟨view, hview, hkind⟩ := hkind
          split at hkind
          · simp at hkind
          · next hdigest =>
            simp only [ok_bind_iff, orErr_eq_ok, checkedAdd_eq_ok] at hkind
            obtain ⟨new, ⟨hsum, hnew⟩, hpure⟩ := hkind
            cases hpure
            subst hnew
            simp only [ok_bind_iff] at h
            obtain ⟨target₁, htarget₁, hcx⟩ := h
            obtain ⟨raw, balance, hraw, hbal, hset⟩ := modifiedUser_eq_ok.mp htarget₁
            rw [hview] at hraw
            cases hraw
            cases hbal
            subst hset
            cases hcx
            refine ⟨config, out, .live, target, _, deposit, hconfig, hout, hspk.1, hspk.2,
              hstate, htarget, hdeposit, .credited view hview hsum, ?_, rfl⟩
            intro raw _ hraw
            rw [hview] at hraw
            cases hraw
            exact not_not.mp hdigest
        | deleted => simp [creditKind] at hkind

theorem applyWithdraw_eq_ok {idx : UInt8} {amount : UInt64} {dest : StandardSpk}
    (h : applyWithdraw P auth idx amount dest cx = .ok cx') :
    ∃ config target view lock, findConfig P cx.resources = some config ∧
      cx.resources[idx.toNat]? = some target ∧ viewUser target = some view ∧
      view.lock = .ok lock ∧ lock.unlock idx auth = .ok true ∧ config.amount ≤ amount ∧
      amount ≤ view.amount ∧
      cx' = { cx.setResource idx.toNat
          (target.setData { view with amount := view.amount - amount }.toBytes) with
        exits := ⟨cx.exits.buf ++ Exit.encode ⟨dest, amount⟩⟩ } := by
  simp only [applyWithdraw, ok_bind_iff, okOr_eq_ok, ApplyContext.resource, orPanic_eq_ok] at h
  obtain ⟨config, hconfig, target, htarget, ok, hok, h⟩ := h
  split at h
  · simp at h
  · next htrue =>
    have htrue' : ok = true := by simpa using htrue
    subst htrue'
    obtain ⟨view, lock, hview, hlock, hunlock⟩ := userUnlocked_eq_ok hok
    split at h
    · simp at h
    · next hmin =>
      simp only [ok_bind_iff, okOr_eq_ok, orErr_eq_ok, checkedSub_eq_ok, lift_eq_ok] at h
      obtain ⟨view', hview', balance, ⟨hle, hbalance⟩, target', htarget', exits, hexits, hcx⟩ := h
      rw [hview] at hview'
      cases hview'
      obtain ⟨raw, b, hraw, hb, hset⟩ := modifiedUser_eq_ok.mp htarget'
      rw [hview] at hraw
      cases hraw
      cases hb
      subst hbalance hset
      cases hexits
      cases hcx
      exact ⟨config, target, view, lock, hconfig, htarget, hview, hlock, hunlock,
        UInt64.not_lt.mp hmin, hle, rfl⟩

/-! ### Exits of a run -/

theorem applyAction_exits {action : ActionBody} (h : applyAction P auth action cx = .ok cx') :
    cx'.exits.buf = cx.exits.buf ++ action.exitBytes := by
  cases action with
  | update idx min covenantId lock =>
    obtain ⟨_, _, _, _, _, _, _, _, _, _, hcx⟩ := applyUpdate_eq_ok h
    simp [hcx, ActionBody.exitBytes, ActionBody.exits, ApplyContext.setResource]
  | init idx min covenantId lock =>
    obtain ⟨_, _, _, _, _, hcx⟩ := applyInit_eq_ok h
    simp [hcx, ActionBody.exitBytes, ActionBody.exits, ApplyContext.setResource]
  | transfer src dst amount destInit =>
    obtain ⟨_, _, _, _, _, _, _, _, _, _, _, _, _, _, _, hcx⟩ := applyTransfer_eq_ok h
    simp [hcx, ActionBody.exitBytes, ActionBody.exits, ApplyContext.setResource]
  | updateUserLock idx lock =>
    obtain ⟨_, _, _, _, _, _, _, hcx⟩ := applyUpdateUserLock_eq_ok h
    simp [hcx, ActionBody.exitBytes, ActionBody.exits, ApplyContext.setResource]
  | deposit idx outputIdx lock =>
    obtain ⟨_, _, _, _, _, _, _, _, _, _, _, _, _, _, _, _, hcx⟩ := applyDeposit_eq_ok h
    simp [hcx, ActionBody.exitBytes, ActionBody.exits, ApplyContext.setResource]
  | withdraw idx amount dest =>
    obtain ⟨_, _, _, _, _, _, _, _, _, _, _, hcx⟩ := applyWithdraw_eq_ok h
    simp [hcx, ActionBody.exitBytes, ActionBody.exits]

theorem applyActions_exits {actions : List ActionBody} (h : applyActions P auth cx actions = .ok cx') :
    cx'.exits.buf = cx.exits.buf ++ actions.flatMap ActionBody.exitBytes := by
  induction actions generalizing cx with
  | nil =>
    cases h
    simp
  | cons action rest ih =>
    have ⟨cx₁, hcx₁, hrest⟩ := ok_bind_iff.mp h
    rw [ih hrest, applyAction_exits hcx₁, List.flatMap_cons, List.append_assoc]

end

theorem run_eq_ok {P : Primitives} {tx : Transaction} {resources : List Resource} {exits : ExitSink}
    {deposit : DepositSink} {cx : ApplyContext} (h : run P tx resources exits deposit = .ok cx) :
    ∃ ix auth, decodeIx tx.payload.ixData resources.length = .ok ix ∧
      applyActions P auth (ApplyContext.new tx resources exits deposit) ix.actions = .ok cx := by
  simp only [run, ok_bind_iff, lift_eq_ok] at h
  obtain ⟨ix, hix, _, _, _, _, auth, _, happly⟩ := h
  exact ⟨ix, auth, hix, happly⟩

/-- A transaction emits no more exit bytes than its instructions have. -/
theorem run_exits_length {P : Primitives} {tx : Transaction} {resources : List Resource} {exits : ExitSink}
    {deposit : DepositSink} {cx : ApplyContext} (h : run P tx resources exits deposit = .ok cx) :
    cx.exits.buf.length ≤ exits.buf.length + tx.payload.ixData.length := by
  have ⟨ix, auth, hix, happly⟩ := run_eq_ok h
  have ⟨_, _, hlen⟩ := decodeIx_spec hix
  rw [applyActions_exits happly, List.length_append]
  exact Nat.add_le_add_left hlen _

end Vprogs.Runtime
