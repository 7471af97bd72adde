import Vprogs.Runtime.Effects

/-!
What the typed views see after a write. A decoded lock always has a body that
validates, so a user written with it is seen again with the same balance; a
config is never seen as a user.
-/
namespace Vprogs.Runtime

open Abi

/-! ### Locks that validate -/

/-- The stored form of the lock passes the check of the typed views. -/
def LockEnum.Valid (lock : LockEnum) : Prop := validateLockBody lock.tag lock.body = .ok ()

theorem validateMultisigFields_eq_ok {threshold n : UInt8} {pubkeys : Bytes} :
    validateMultisigFields threshold n pubkeys = .ok () ↔
      (threshold ≠ 0 ∧ n ≠ 0 ∧ ¬ n < threshold ∧ ¬ MULTISIG_MAX_PUBKEYS < n) ∧
        pubkeys.length = n.toNat * 32 ∧ isStrictlyAscending (asChunks pubkeys) = true := by
  unfold validateMultisigFields
  have hlen : ¬ (pubkeys.length % 32 ≠ 0 ∨ pubkeys.length / 32 ≠ n.toNat) ↔
      pubkeys.length = n.toNat * 32 := by omega
  constructor
  · intro h
    split at h
    · cases h
    · next hfields =>
      split at h
      · cases h
      · next hlength =>
        split at h
        · cases h
        · next hasc =>
          simp only [not_or] at hfields
          exact ⟨hfields, hlen.mp hlength, by simpa using hasc⟩
  · intro ⟨hfields, hlength, hasc⟩
    rw [if_neg (by simpa only [not_or] using hfields), if_neg (hlen.mpr hlength), hasc]
    rfl

theorem validateMultisigFields_count {threshold n : UInt8} {pubkeys : Bytes}
    (h : validateMultisigFields threshold n pubkeys = .ok ()) : LockEnum.nPubkeys pubkeys = n := by
  have ⟨_, hlen, _⟩ := validateMultisigFields_eq_ok.mp h
  rw [LockEnum.nPubkeys, hlen, Nat.mul_div_cancel _ (by decide), UInt8.ofNat_toNat]

theorem LockEnum.valid_of_decode {buf rest : Bytes} {lock : LockEnum}
    (h : LockEnum.decode.run buf = .ok (lock, rest)) : lock.Valid := by
  have ⟨tag, mid, _, hbody⟩ := Reader.run_bind_eq_ok.mp h
  split at hbody
  · have ⟨pubkey, _, _, hmk⟩ := Reader.run_bind_eq_ok.mp hbody
    cases hmk
    exact if_neg (not_not.mpr pubkey.property)
  · split at hbody
    · simp only [LockEnum.decodeMultisig, Reader.run_bind_eq_ok] at hbody
      have ⟨threshold, _, _, n, _, _, pubkeys, _, _, hmk⟩ := hbody
      split at hmk
      · next hfields =>
        cases hmk
        change validateMultisigFields threshold (LockEnum.nPubkeys pubkeys) pubkeys = .ok ()
        rw [validateMultisigFields_count hfields]
        exact hfields
      · cases hmk
    · split at hbody
      · cases hbody
        rfl
      · cases hbody

/-- The locks an action carries. -/
def ActionBody.locks : ActionBody → List LockEnum
  | .update _ _ _ lock | .init _ _ _ lock | .updateUserLock _ lock | .deposit _ _ lock => [lock]
  | .transfer _ _ _ destInit => destInit.toList
  | .withdraw _ _ _ => []

def ActionBody.Valid (action : ActionBody) : Prop := ∀ lock ∈ action.locks, lock.Valid

theorem decodeConfigAction_valid {what : String} {n : Nat}
    {mk : UInt8 → UInt64 → Hash → LockEnum → ActionBody} {buf rest : Bytes} {action : ActionBody}
    (hlocks : ∀ idx min covenantId lock, (mk idx min covenantId lock).locks = [lock])
    (h : (decodeConfigAction what n mk).run buf = .ok (action, rest)) : action.Valid := by
  simp only [decodeConfigAction, Reader.run_bind_eq_ok] at h
  obtain ⟨idx, _, _, min, _, _, covenantId, _, _, lock, _, hlock, hmk⟩ := h
  cases hmk
  intro l hl
  rw [hlocks, List.mem_singleton] at hl
  exact hl ▸ LockEnum.valid_of_decode hlock

theorem decodeDestInit_valid {buf rest : Bytes} {destInit : Option LockEnum}
    (h : decodeDestInit.run buf = .ok (destInit, rest)) : ∀ lock ∈ destInit.toList, lock.Valid := by
  have ⟨flag, _, _, hbody⟩ := Reader.run_bind_eq_ok.mp h
  split at hbody
  · cases hbody
    intro lock hmem
    cases hmem
  · split at hbody
    · have ⟨lock, _, hlock, hmk⟩ := Reader.run_bind_eq_ok.mp hbody
      cases hmk
      intro l hl
      rw [Option.toList_some, List.mem_singleton] at hl
      exact hl ▸ LockEnum.valid_of_decode hlock
    · cases hbody

theorem decodeAction_valid {n : Nat} {buf rest : Bytes} {action : ActionBody}
    (h : (decodeAction n).run buf = .ok (action, rest)) : action.Valid := by
  have ⟨tag, mid, _, hbody⟩ := Reader.run_bind_eq_ok.mp h
  clear h
  split at hbody
  · exact decodeConfigAction_valid (fun _ _ _ _ => rfl) hbody
  · split at hbody
    · exact decodeConfigAction_valid (fun _ _ _ _ => rfl) hbody
    · split at hbody
      · simp only [Reader.run_bind_eq_ok] at hbody
        have ⟨_, _, _, _, _, _, _, _, _, destInit, _, hinit, hmk⟩ := hbody
        cases hmk
        exact decodeDestInit_valid hinit
      · split at hbody
        · simp only [Reader.run_bind_eq_ok] at hbody
          have ⟨_, _, _, lock, _, hlock, hmk⟩ := hbody
          cases hmk
          exact List.forall_mem_singleton.mpr (LockEnum.valid_of_decode hlock)
        · split at hbody
          · simp only [Reader.run_bind_eq_ok] at hbody
            have ⟨_, _, _, _, _, _, lock, _, hlock, hmk⟩ := hbody
            cases hmk
            exact List.forall_mem_singleton.mpr (LockEnum.valid_of_decode hlock)
          · split at hbody
            · simp only [Reader.run_bind_eq_ok] at hbody
              have ⟨_, _, _, _, _, _, _, _, _, hmk⟩ := hbody
              cases hmk
              intro lock hmem
              cases hmem
            · cases hbody

theorem decodeActions_valid {n count : Nat} {buf rest : Bytes} {actions : List ActionBody}
    (h : (decodeActions n count).run buf = .ok (actions, rest)) : ∀ action ∈ actions, action.Valid := by
  induction count generalizing buf actions with
  | zero =>
    cases h
    intro action hmem
    cases hmem
  | succ count ih =>
    simp only [decodeActions, Reader.run_bind_eq_ok] at h
    obtain ⟨action, _, haction, others, _, hothers, hcons⟩ := h
    cases hcons
    rw [List.forall_mem_cons]
    exact ⟨decodeAction_valid haction, ih hothers⟩

theorem decodeIx_valid {orig : Bytes} {n : Nat} {ix : DecodedIx} (h : decodeIx orig n = .ok ix) :
    ∀ action ∈ ix.actions, action.Valid := by
  simp only [decodeIx] at h
  cases hrun : (readIx n).run orig with
  | error e => rw [hrun] at h; cases h
  | ok r =>
    obtain ⟨⟨signers, actions⟩, rest⟩ := r
    rw [hrun] at h
    cases h
    simp only [readIx, Reader.run_bind_eq_ok] at hrun
    obtain ⟨_, _, _, _, _, _, _, _, _, actions, _, hactions, hpair⟩ := hrun
    cases hpair
    exact decodeActions_valid hactions

/-! ### Views after a write -/

/-- Both typed views: the kind byte selects them and the layout has to validate. -/
theorem view_eq_some {what : String} {kind : UInt8} {bytes : Bytes} {raw : Raw} :
    (if kindOf bytes = some kind then (Raw.fromBytes what kind bytes).toOption else none) = some raw ↔
      bytes = raw.toBytes ∧ raw.kind = kind ∧ validateLockBody raw.lockTag raw.lockBody = .ok () := by
  constructor
  · intro h
    split at h
    · exact Raw.fromBytes_eq_ok.mp (toOption_eq_some.mp h)
    · cases h
  · intro h
    have hkind : kindOf bytes = some kind := by rw [h.1, ← h.2.1]; rfl
    rw [if_pos hkind]
    exact toOption_eq_some.mpr (Raw.fromBytes_eq_ok.mpr h)

theorem viewUser_iff {r : Resource} {raw : Raw} :
    viewUser r = some raw ↔ r.data = raw.toBytes ∧ raw.kind = KIND_USER ∧
      validateLockBody raw.lockTag raw.lockBody = .ok () :=
  view_eq_some

theorem viewConfig_iff {r : Resource} {raw : Raw} :
    viewConfig r = some raw ↔ r.data = raw.toBytes ∧ raw.kind = KIND_CONFIG ∧
      validateLockBody raw.lockTag raw.lockBody = .ok () :=
  view_eq_some

theorem viewUser_nil {r : Resource} (h : r.data = []) : viewUser r = none := by
  rw [viewUser, h]
  rfl

theorem viewUser_userBytes (r : Resource) (balance : UInt64) (ilh : Hash) {lock : LockEnum}
    (h : lock.Valid) : viewUser (r.setData (userBytes balance ilh lock)) =
      some ⟨KIND_USER, balance, ilh, lock.tag, lock.body⟩ :=
  viewUser_iff.mpr ⟨rfl, rfl, h⟩

theorem viewUser_setAmount {r : Resource} {raw : Raw} (h : viewUser r = some raw) (balance : UInt64) :
    viewUser (r.setData { raw with amount := balance }.toBytes) =
      some { raw with amount := balance } := by
  have ⟨_, hkind, hvalid⟩ := viewUser_iff.mp h
  exact viewUser_iff.mpr ⟨rfl, hkind, hvalid⟩

/-- A slot of the other kind holds no user. -/
theorem viewUser_of_kind {r : Resource} {kind : UInt8} (h : kindOf r.data = some kind)
    (hkind : kind ≠ KIND_USER) : viewUser r = none := by
  rw [viewUser, h, if_neg (fun he => hkind (Option.some.inj he))]

theorem viewUser_configBytes (r : Resource) (min : UInt64) (covenantId : Hash) (lock : LockEnum) :
    viewUser (r.setData (configBytes min covenantId lock)) = none := by
  have hk : kindOf (r.setData (configBytes min covenantId lock)).data = some KIND_CONFIG := rfl
  exact viewUser_of_kind hk (by decide)

theorem viewUser_of_config {r : Resource} {raw : Raw} (h : ConfigView.fromBytes r.data = .ok raw) :
    viewUser r = none := by
  have ⟨hdata, hkind, _⟩ := Raw.fromBytes_eq_ok.mp h
  have hk : kindOf r.data = some KIND_CONFIG := by rw [hdata, ← hkind]; rfl
  exact viewUser_of_kind hk (by decide)

theorem viewConfig_nil {r : Resource} (h : r.data = []) : viewConfig r = none := by
  rw [viewConfig, h]
  rfl

theorem viewConfig_of_user {r : Resource} {raw : Raw} (h : r.data = raw.toBytes)
    (hkind : raw.kind = KIND_USER) : viewConfig r = none := by
  have hk : kindOf r.data = some KIND_USER := by rw [h, ← hkind]; rfl
  rw [viewConfig, hk, if_neg (by decide)]

theorem viewConfig_setAmount {r : Resource} {raw : Raw} (h : viewUser r = some raw)
    (balance : UInt64) : viewConfig (r.setData { raw with amount := balance }.toBytes) = none := by
  have hkind : { raw with amount := balance }.kind = KIND_USER := (viewUser_iff.mp h).2.1
  exact viewConfig_of_user rfl hkind

theorem viewConfig_of_config {r : Resource} {raw : Raw} (h : ConfigView.fromBytes r.data = .ok raw) :
    viewConfig r = some raw :=
  viewConfig_iff.mpr (Raw.fromBytes_eq_ok.mp h)

end Vprogs.Runtime
