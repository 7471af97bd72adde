import Vprogs.Runtime.Decoded

/-!
The runtime does not abort: every index, slice and unchecked decode it reaches
from decoded instructions is in range, for every resource state. What carries
the actions is that decoded indices stay below the number of resources, which
no action changes.
-/
namespace Vprogs.Runtime

open Abi

/-- A run that does not abort, returns a value in `Q` or reports an error that fits
the journal. -/
abbrev SafeRun {α : Type} (Q : α → Prop) (x : Run α) : Prop := Safe Error.Encodable Q x

abbrev Clean {α : Type} (x : Run α) : Prop := Reports Error.Encodable x

theorem clean_err {α : Type} {msg : String} (h : Error.Encodable (.decode msg)) :
    Clean (err msg : Run α) := h

theorem clean_orErr {α : Type} {x : Except String α} (h : ShortMsg x) : Clean (orErr x) := by
  cases x with
  | ok a => trivial
  | error msg => exact h msg rfl

@[simp] theorem orErr_eq_ok {α : Type} {x : Except String α} {a : α} : orErr x = .ok a ↔ x = .ok a := by
  cases x <;> simp [orErr, err]

@[simp] theorem err_ne_ok {α : Type} {msg : String} {a : α} : (err msg : Run α) = .ok a ↔ False := by
  simp [err]

/-! ### Locks -/

theorem clean_sliceForResource {α : Type} (bucket : List (UInt8 × α)) (idx : UInt8) :
    Clean (sliceForResource bucket idx) := by
  have hle : slicePartitionPoint (fun e => decide (e.1 < idx)) bucket ≤
      slicePartitionPoint (fun e => decide (e.1 ≤ idx)) bucket := by
    refine slicePartitionPoint_mono ?_ bucket
    intro e he
    simp only [decide_eq_true_eq] at he ⊢
    exact UInt8.le_of_lt he
  simp only [sliceForResource, if_pos hle]
  exact Safe.ok trivial

theorem clean_unlock (lock : LockEnum) (idx : UInt8) (ctx : AuthContext) : Clean (lock.unlock idx ctx) := by
  cases lock with
  | schnorr pubkey =>
    refine Safe.bind (clean_sliceForResource _ _) fun entries _ => ?_
    split <;> exact Safe.ok trivial
  | multisig threshold pubkeys =>
    refine Safe.bind (clean_sliceForResource _ _) fun entries _ => ?_
    split <;> exact Safe.ok trivial
  | unlocked => exact Safe.ok trivial

theorem writeBody_eq (lock : LockEnum) : lock.writeBody lock.wireBodyLen = .ok lock.body := by
  cases lock with
  | schnorr pubkey => rfl
  | multisig threshold pubkeys =>
    simp only [LockEnum.writeBody, LockEnum.wireBodyLen, LockEnum.body, ok_bind_iff, check_eq_ok]
    exact ⟨(), by simp, (), by simp, rfl⟩
  | unlocked => rfl

theorem length_body (lock : LockEnum) : lock.body.length = lock.wireBodyLen := by
  cases lock with
  | schnorr pubkey => simp [LockEnum.body, LockEnum.wireBodyLen]
  | multisig threshold pubkeys =>
    simp [LockEnum.body, LockEnum.wireBodyLen]
    omega
  | unlocked => rfl

/-- Writing into a buffer sized for the lock never fails. -/
theorem writeRaw_eq {what : String} {kind : UInt8} {amount : UInt64} {digest : Hash}
    {lock : LockEnum} {outLen : Nat} (h : outLen = HEADER_LEN + lock.wireBodyLen) :
    writeRaw what kind outLen amount digest lock =
      .ok (Raw.toBytes ⟨kind, amount, digest, lock.tag, lock.body⟩) := by
  have hlen : outLen - HEADER_LEN = lock.wireBodyLen := by omega
  rw [writeRaw, if_neg (not_not.mpr h), hlen, writeBody_eq]
  rfl

theorem decodeLockBodyUnchecked_of_valid {tag : UInt8} {body : Bytes}
    (h : validateLockBody tag body = .ok ()) : ∃ lock, decodeLockBodyUnchecked tag body = .ok lock := by
  unfold validateLockBody at h
  unfold decodeLockBodyUnchecked
  split at h
  · next htag =>
    split at h
    · cases h
    · next hlen =>
      rw [if_pos htag, dif_pos (not_not.mp hlen)]
      exact ⟨_, rfl⟩
  · next htag =>
    rw [if_neg htag]
    split at h
    · next htag' =>
      rw [if_pos htag']
      split at h
      · exact ⟨_, rfl⟩
      · cases h
    · next htag' =>
      rw [if_neg htag']
      split at h
      · next htag'' =>
        rw [if_pos htag'']
        exact ⟨_, rfl⟩
      · cases h

theorem clean_lock {what : String} {kind : UInt8} {bytes : Bytes} {raw : Raw}
    (h : Raw.fromBytes what kind bytes = .ok raw) : Clean raw.lock := by
  have ⟨lock, hlock⟩ := decodeLockBodyUnchecked_of_valid (Raw.fromBytes_eq_ok.mp h).2.2
  exact Reports.of_eq_ok hlock

theorem viewUser_eq_some {r : Resource} {raw : Raw} (h : viewUser r = some raw) :
    UserView.fromBytes r.data = .ok raw := by
  unfold viewUser at h
  split at h
  · cases hv : UserView.fromBytes r.data with
    | ok found =>
      rw [hv] at h
      cases h
      rfl
    | error msg =>
      rw [hv] at h
      cases h
  · cases h

/-! ### Signers -/

theorem clean_readLock (ctx : SignerResolveContext) (idx : UInt8) : Clean (readLock ctx idx) := by
  refine Safe.bind (Reports.okOr (by decide)) fun resource _ => ?_
  dsimp only
  split
  · refine Safe.bind (clean_orErr (shortMsg_fromBytes (by decide) _ _)) fun view hview => ?_
    exact clean_lock (orErr_eq_ok.mp hview)
  · split
    · refine Safe.bind (clean_orErr (shortMsg_fromBytes (by decide) _ _)) fun view hview => ?_
      exact clean_lock (orErr_eq_ok.mp hview)
    · exact clean_err (by decide)

theorem clean_readSchnorrLockPubkey (ctx : SignerResolveContext) (idx : UInt8) :
    Clean (readSchnorrLockPubkey ctx idx) := by
  refine Safe.bind (clean_readLock ctx idx) fun lock _ => ?_
  split
  · exact Safe.ok trivial
  · exact clean_err (by decide)

theorem clean_readMultisigLockPubkeyAt (ctx : SignerResolveContext) (idx pubkeyIdx : UInt8) :
    Clean (readMultisigLockPubkeyAt ctx idx pubkeyIdx) := by
  refine Safe.bind (clean_readLock ctx idx) fun lock _ => ?_
  split
  · split
    · exact clean_err (by decide)
    · exact Reports.okOr (by decide)
  · exact clean_err (by decide)

section

variable (P : Primitives) (ctx : SignerResolveContext)

theorem clean_verifiedKey (pubkey : Hash) (sigOffset : UInt32) {failure : String}
    (h : Error.Encodable (.decode failure)) : Clean (verifiedKey P ctx pubkey sigOffset failure) := by
  refine Safe.bind (Reports.okOr (by decide)) fun sig _ => ?_
  split
  · exact Safe.ok trivial
  · exact clean_err h

theorem clean_recoverWitnessPubkey (inputIdx : UInt8) (rpOff rpLen pdOff : UInt32) :
    Clean (recoverWitnessPubkey P ctx inputIdx rpOff rpLen pdOff) := by
  refine Safe.bind (Reports.okOr (by decide)) fun restPreimage _ => ?_
  refine Safe.bind (Reports.okOr (by decide)) fun payloadDigest _ => ?_
  refine Safe.bind (Reports.lift (shortError_recoverPrevTxV1P2pkPubkey P _ _ _ _))
    fun recovered _ => ?_
  exact Reports.okOr (by decide)

theorem clean_resolveSigner (auth : AuthContext) (idx : UInt8) (signer : SignerEnum) :
    Clean (resolveSigner P ctx auth idx signer) := by
  cases signer with
  | schnorrSigPtr sigOffset =>
    refine Safe.bind (clean_readSchnorrLockPubkey ctx idx) fun pubkey _ => ?_
    exact Safe.bind (clean_verifiedKey P ctx _ _ (by decide)) fun key _ => Safe.ok trivial
  | genesisSchnorrSigPtr sigOffset =>
    refine Safe.bind (Reports.okOr (by decide)) fun _ _ => ?_
    exact Safe.bind (clean_verifiedKey P ctx _ _ (by decide)) fun key _ => Safe.ok trivial
  | multisigSchnorrSigPtr pubkeyIdx sigOffset =>
    refine Safe.bind (clean_readMultisigLockPubkeyAt ctx idx pubkeyIdx) fun pubkey _ => ?_
    exact Safe.bind (clean_verifiedKey P ctx _ _ (by decide)) fun key _ => Safe.ok trivial
  | prevTxV1Witness inputIdx rpOff rpLen pdOff =>
    exact Safe.bind (clean_recoverWitnessPubkey P ctx _ _ _ _) fun key _ => Safe.ok trivial
  | multisigPrevTxV1Witness inputIdx rpOff rpLen pdOff =>
    exact Safe.bind (clean_recoverWitnessPubkey P ctx _ _ _ _) fun key _ => Safe.ok trivial

theorem clean_resolveSigners (auth : AuthContext) (signers : List (UInt8 × SignerEnum)) :
    Clean (resolveSigners P ctx auth signers) := by
  induction signers generalizing auth with
  | nil => exact Safe.ok trivial
  | cons entry rest ih =>
    exact Safe.bind (clean_resolveSigner P ctx auth entry.1 entry.2) fun auth' _ => ih auth'

end

/-! ### Actions -/

/-- The context keeps one lifecycle entry per resource. -/
def Sized (n : Nat) (cx : ApplyContext) : Prop :=
  cx.resources.length = n ∧ cx.lifecycle.length = n

section

variable {n : Nat} {cx : ApplyContext}

theorem Sized.resource (h : Sized n cx) {idx : Nat} (hidx : idx < n) : Clean (cx.resource idx) := by
  have hlt : idx < cx.resources.length := h.1 ▸ hidx
  rw [ApplyContext.resource, List.getElem?_eq_getElem hlt]
  exact Safe.ok trivial

theorem Sized.lifecycleAt (h : Sized n cx) {idx : Nat} (hidx : idx < n) : Clean (cx.lifecycleAt idx) := by
  have hlt : idx < cx.lifecycle.length := h.2 ▸ hidx
  rw [ApplyContext.lifecycleAt, List.getElem?_eq_getElem hlt]
  exact Safe.ok trivial

theorem Sized.setResource (h : Sized n cx) (idx : Nat) (r : Resource) :
    Sized n (cx.setResource idx r) := ⟨by simp [ApplyContext.setResource, h.1], h.2⟩

theorem Sized.clean_markCreated (h : Sized n cx) {idx : Nat} (hidx : idx < n) :
    Clean (cx.markCreated idx) := by
  refine Safe.bind (h.lifecycleAt hidx) fun state _ => ?_
  exact Safe.bind (clean_orErr (shortMsg_created state)) fun state' _ => Safe.ok trivial

theorem Sized.markCreated (h : Sized n cx) {idx : Nat} {cx' : ApplyContext}
    (hok : cx.markCreated idx = .ok cx') : Sized n cx' := by
  simp only [ApplyContext.markCreated, ok_bind_iff] at hok
  have ⟨_, _, _, _, hcx⟩ := hok
  cases hcx
  exact ⟨h.1, by simp [h.2]⟩

end

theorem safe_err {Q : ApplyContext → Prop} {msg : String} (h : Error.Encodable (.decode msg)) :
    SafeRun Q (err msg) := h

theorem length_resize (r : Resource) (newLen : Nat) : (r.resize newLen).data.length = newLen := by
  unfold Resource.resize
  split
  · next h => exact h.symm
  · split
    · simp
      omega
    · simp
      omega

theorem clean_writeNewState (target : Resource) (min : UInt64) (covenantId : Hash)
    (lock : LockEnum) : Clean (writeNewState target min covenantId lock) := by
  unfold writeNewState
  refine Safe.bind ?_ fun data _ => Safe.ok trivial
  apply Reports.of_eq_ok
  apply writeRaw_eq
  split
  · exact length_resize _ _
  · next h =>
    rw [not_or, not_not] at h
    exact h.2

theorem clean_initUser (r : Resource) (balance : UInt64) (ilh : Hash) (lock : LockEnum) :
    Clean (initUser r balance ilh lock) := by
  unfold initUser
  split
  · exact clean_err (by decide)
  · refine Safe.bind ?_ fun data _ => Safe.ok trivial
    exact Reports.of_eq_ok (writeRaw_eq (length_resize _ _))

theorem clean_setUserLock (r : Resource) (lock : LockEnum) : Clean (setUserLock r lock) := by
  unfold setUserLock
  split
  · exact clean_err (by decide)
  · refine Safe.bind (clean_orErr (shortMsg_fromBytes (by decide) _ _)) fun view _ => ?_
    refine Safe.bind ?_ fun data _ => Safe.ok trivial
    exact Reports.of_eq_ok (writeRaw_eq (length_resize _ _))

theorem clean_modifiedUser (r : Resource) {f : UInt64 → Except String UInt64} {absent : String}
    (hf : ∀ balance, ShortMsg (f balance)) (habsent : Error.Encodable (.decode absent)) :
    Clean (modifiedUser r f absent) := by
  refine Safe.bind (Reports.okOr habsent) fun modified hmodified => clean_orErr ?_
  have hmod := okOr_eq_ok.mp hmodified
  unfold modifyUser at hmod
  split at hmod
  · cases hmod
  · next raw hraw =>
    cases hmod
    intro msg hmsg
    cases hbal : f raw.amount with
    | ok balance => rw [hbal] at hmsg; cases hmsg
    | error m =>
      rw [hbal] at hmsg
      cases hmsg
      exact hf _ _ hbal

theorem clean_userUnlocked (auth : AuthContext) (r : Resource) (idx : UInt8) {absent : String}
    (habsent : Error.Encodable (.decode absent)) : Clean (userUnlocked auth r idx absent) := by
  refine Safe.bind (Reports.okOr habsent) fun view hview => ?_
  have hv := viewUser_eq_some (okOr_eq_ok.mp hview)
  exact Safe.bind (clean_lock hv) fun lock _ => clean_unlock lock idx auth

theorem clean_validateUserCreate (P : Primitives) (slotId : ResourceId) (lock : LockEnum)
    (funding : UInt64) : Clean (validateUserCreate P slotId lock funding) := by
  unfold validateUserCreate
  dsimp only
  split
  · exact clean_err (by decide)
  · split
    · exact clean_err (by decide)
    · exact Safe.ok trivial

section

variable (P : Primitives) (auth : AuthContext) {n : Nat} {cx : ApplyContext}

theorem applyUpdate_safe (h : Sized n cx) {idx : UInt8} (hidx : idx.toNat < n) (min : UInt64)
    (covenantId : Hash) (lock : LockEnum) :
    SafeRun (Sized n) (applyUpdate P auth idx min covenantId lock cx) := by
  refine Safe.bind (h.resource hidx) fun target _ => ?_
  split
  · exact safe_err (by decide)
  · refine Safe.bind (h.lifecycleAt hidx) fun state _ => ?_
    split
    · exact safe_err (by decide)
    · exact safe_err (by decide)
    · refine Safe.bind (clean_orErr (shortMsg_fromBytes (by decide) _ _)) fun cur hcur => ?_
      split
      · exact safe_err (by decide)
      · refine Safe.bind (clean_lock (orErr_eq_ok.mp hcur)) fun curLock _ => ?_
        refine Safe.bind (clean_unlock curLock idx auth) fun ok _ => ?_
        split
        · exact safe_err (by decide)
        · refine Safe.bind (clean_writeNewState _ _ _ _) fun target' _ => ?_
          exact Safe.ok (h.setResource _ _)

theorem applyInit_safe (h : Sized n cx) {idx : UInt8} (hidx : idx.toNat < n) (min : UInt64)
    (covenantId : Hash) (lock : LockEnum) :
    SafeRun (Sized n) (applyInit P auth idx min covenantId lock cx) := by
  refine Safe.bind (h.resource hidx) fun target _ => ?_
  split
  · exact safe_err (by decide)
  · refine Safe.bind (h.lifecycleAt hidx) fun state _ => ?_
    split
    · exact safe_err (by decide)
    · refine Safe.bind (clean_unlock _ _ _) fun ok _ => ?_
      split
      · exact safe_err (by decide)
      · refine Safe.bind (clean_writeNewState _ _ _ _) fun target' _ => ?_
        have hset := h.setResource idx.toNat target'
        exact Safe.intro (hset.clean_markCreated hidx) fun cx' hok => hset.markCreated hok

theorem clean_dstCreate (state : Lifecycle) : Clean (dstCreate state) := by
  cases state with
  | new => exact Safe.ok trivial
  | live => exact Safe.ok trivial
  | deleted => exact clean_err (by decide)

theorem clean_createPlan (create : Bool) (dst : Resource) (amount : UInt64)
    (destInit : Option LockEnum) : Clean (createPlan P create dst amount destInit) := by
  unfold createPlan
  split
  · refine Safe.bind (Reports.okOr (by decide)) fun lock _ => ?_
    exact Safe.bind (clean_validateUserCreate P _ _ _) fun ilh _ => Safe.ok trivial
  · exact Safe.ok trivial

theorem clean_creditDest (plan : Option (Hash × LockEnum)) (dst : Resource) (amount : UInt64) :
    Clean (creditDest plan dst amount) := by
  unfold creditDest
  split
  · exact clean_initUser _ _ _ _
  · exact clean_modifiedUser _ (fun _ => shortMsg_checkedAdd _ _ (by decide)) (by decide)

theorem applyTransfer_safe (h : Sized n cx) {src dst : UInt8} (hdst : dst.toNat < n) (amount : UInt64)
    (destInit : Option LockEnum) : SafeRun (Sized n) (applyTransfer P auth src dst amount destInit cx) := by
  unfold applyTransfer
  split
  · exact safe_err (by decide)
  · refine Safe.bind (h.lifecycleAt hdst) fun state _ => ?_
    refine Safe.bind (clean_dstCreate state) fun create _ => ?_
    refine Safe.bind (Reports.okOr (by decide)) fun srcR _ => ?_
    refine Safe.bind (Reports.okOr (by decide)) fun dstR _ => ?_
    refine Safe.bind (clean_userUnlocked auth _ _ (by decide)) fun ok _ => ?_
    split
    · exact safe_err (by decide)
    · refine Safe.bind (clean_createPlan P _ _ _ _) fun plan _ => ?_
      refine Safe.bind (clean_modifiedUser _ (fun _ => shortMsg_checkedSub _ _ (by decide))
        (by decide)) fun srcR' _ => ?_
      refine Safe.bind (clean_creditDest _ _ _) fun dstR' _ => ?_
      have hset := (h.setResource src.toNat srcR').setResource dst.toNat dstR'
      dsimp only
      split
      · exact Safe.intro (hset.clean_markCreated hdst) fun cx' hok => hset.markCreated hok
      · exact Safe.ok hset

theorem applyUpdateUserLock_safe (h : Sized n cx) {idx : UInt8} (hidx : idx.toNat < n)
    (lock : LockEnum) : SafeRun (Sized n) (applyUpdateUserLock auth idx lock cx) := by
  refine Safe.bind (h.resource hidx) fun target _ => ?_
  refine Safe.bind (clean_userUnlocked auth _ _ (by decide)) fun ok _ => ?_
  split
  · exact safe_err (by decide)
  · refine Safe.bind (clean_setUserLock _ _) fun target' _ => ?_
    exact Safe.ok (h.setResource _ _)

theorem clean_creditKind (state : Lifecycle) (target : Resource) (lock : LockEnum)
    (value : UInt64) : Clean (creditKind P state target lock value) := by
  unfold creditKind
  split
  · exact Safe.bind (clean_validateUserCreate P _ _ _) fun ilh _ => Safe.ok trivial
  · refine Safe.bind (Reports.okOr (by decide)) fun view _ => ?_
    split
    · exact clean_err (by decide)
    · exact Safe.bind (clean_orErr (shortMsg_checkedAdd _ _ (by decide))) fun new _ =>
        Safe.ok trivial
  · exact clean_err (by decide)

theorem shortError_depositSet (sink : DepositSink) (hash : Hash) : ShortError (sink.set hash) := by
  unfold DepositSink.set
  split
  · exact .ok _
  · split
    · exact .ok _
    · intro e he
      cases he
      decide

theorem clean_depositOutput (tx : Transaction) (outputIdx : UInt32) :
    Clean (depositOutput tx outputIdx) := by
  unfold depositOutput
  split
  · exact Safe.ok trivial
  · exact clean_err (by decide)

theorem applyDeposit_safe (h : Sized n cx) (idx : UInt8) (outputIdx : UInt32) (lock : LockEnum) :
    SafeRun (Sized n) (applyDeposit P idx outputIdx lock cx) := by
  unfold applyDeposit
  split
  · exact safe_err (by decide)
  · refine Safe.bind (Reports.okOr (by decide)) fun config _ => ?_
    refine Safe.bind (clean_depositOutput _ _) fun out _ => ?_
    split
    · exact safe_err (by decide)
    · dsimp only
      split
      · exact safe_err (by decide)
      · next hrange =>
        have hidx : idx.toNat < n := by
          rw [h.1] at hrange
          omega
        refine Safe.bind (h.lifecycleAt hidx) fun state _ => ?_
        refine Safe.bind (h.resource hidx) fun target _ => ?_
        refine Safe.bind (clean_creditKind P _ _ _ _) fun kind _ => ?_
        refine Safe.bind (Reports.lift (shortError_depositSet _ _)) fun deposit _ => ?_
        have h' : Sized n { cx with
            deposit := deposit, consumedOutputs := cx.consumedOutputs ++ [outputIdx] } := h
        split
        · refine Safe.bind (h'.clean_markCreated hidx) fun cx' hcx' => ?_
          have hs := h'.markCreated hcx'
          refine Safe.bind (hs.resource hidx) fun target' _ => ?_
          refine Safe.bind (clean_initUser _ _ _ _) fun target'' _ => ?_
          exact Safe.ok (hs.setResource _ _)
        · refine Safe.bind (clean_modifiedUser _ (fun _ => .ok _) (by decide)) fun target' _ => ?_
          exact Safe.ok (h'.setResource _ _)

theorem applyWithdraw_safe (h : Sized n cx) {idx : UInt8} (hidx : idx.toNat < n) (amount : UInt64)
    (dest : StandardSpk) : SafeRun (Sized n) (applyWithdraw P auth idx amount dest cx) := by
  refine Safe.bind (Reports.okOr (by decide)) fun config _ => ?_
  refine Safe.bind (h.resource hidx) fun target _ => ?_
  refine Safe.bind (clean_userUnlocked auth _ _ (by decide)) fun ok _ => ?_
  split
  · exact safe_err (by decide)
  · split
    · exact safe_err (by decide)
    · refine Safe.bind (Reports.okOr (by decide)) fun view _ => ?_
      refine Safe.bind (clean_orErr (shortMsg_checkedSub _ _ (by decide))) fun newBalance _ => ?_
      refine Safe.bind (clean_modifiedUser _ (fun _ => .ok _) (by decide)) fun target' _ => ?_
      refine Safe.bind (Reports.lift (ShortError.ok _)) fun exits _ => ?_
      exact Safe.ok (h.setResource _ _)

theorem applyAction_safe (h : Sized n cx) {action : ActionBody} (hrange : action.InRange n) :
    SafeRun (Sized n) (applyAction P auth action cx) := by
  cases action with
  | update idx min covenantId lock => exact applyUpdate_safe P auth h hrange min covenantId lock
  | init idx min covenantId lock => exact applyInit_safe P auth h hrange min covenantId lock
  | transfer src dst amount destInit => exact applyTransfer_safe P auth h hrange.2 amount destInit
  | updateUserLock idx lock => exact applyUpdateUserLock_safe auth h hrange lock
  | deposit idx outputIdx lock => exact applyDeposit_safe P h idx outputIdx lock
  | withdraw idx amount dest => exact applyWithdraw_safe P auth h hrange amount dest

theorem applyActions_safe {actions : List ActionBody} (h : Sized n cx)
    (hrange : ∀ action ∈ actions, action.InRange n) :
    SafeRun (Sized n) (applyActions P auth cx actions) := by
  induction actions generalizing cx with
  | nil => exact Safe.ok h
  | cons action rest ih =>
    rw [List.forall_mem_cons] at hrange
    have hstep := applyAction_safe P auth h hrange.1
    exact Safe.bind hstep.reports fun cx' hcx' => ih (hstep.of_ok hcx') hrange.2

end

/-- No transaction makes the handler abort, whatever the resources hold, and a
successful one returns as many resources as it was given. -/
theorem run_safe (P : Primitives) (tx : Transaction) (resources : List Resource) (exits : ExitSink)
    (deposit : DepositSink) (hix : tx.payload.ixData.length ≤ tx.payload.bytes.length) :
    SafeRun (Sized resources.length) (run P tx resources exits deposit) := by
  refine Safe.bind (Reports.lift (shortError_decodeIx _ _)) fun ix hdecode => ?_
  have ⟨hrange, hend, _⟩ := decodeIx_spec (lift_eq_ok.mp hdecode)
  refine Safe.bind (Reports.check (decide_eq_true hix)) fun _ _ => ?_
  refine Safe.bind (Reports.check (decide_eq_true (by omega))) fun _ _ => ?_
  refine Safe.bind (clean_resolveSigners _ _ _ _) fun auth _ => ?_
  refine applyActions_safe P auth ⟨rfl, ?_⟩ hrange
  exact List.length_map _

end Vprogs.Runtime
