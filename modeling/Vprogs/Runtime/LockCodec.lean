import Vprogs.Runtime.Views

/-!
The lock codecs against each other. What the cursor decoder, the slice validator and the
unchecked decoder have in common is the set of valid locks: each accepts exactly the
encodings of those, and gives back the lock that was encoded.
-/
namespace Vprogs.Runtime

open Abi

namespace LockEnum

/-! ### The cursor decoder -/

theorem decodeMultisig_of_valid {threshold : UInt8} {pubkeys : Bytes}
    (h : (LockEnum.multisig threshold pubkeys).Valid) (rest : Bytes) :
    decodeMultisig.run (threshold :: nPubkeys pubkeys :: (pubkeys ++ rest)) =
      .ok (.multisig threshold pubkeys, rest) := by
  have hfields : validateMultisigFields threshold (nPubkeys pubkeys) pubkeys = .ok () := h
  have ⟨_, hlen, _⟩ := validateMultisigFields_eq_ok.mp hfields
  simp only [decodeMultisig, Reader.run_bind_eq_ok, Reader.run_byte, Reader.run_bytes]
  refine ⟨threshold, _, rfl, nPubkeys pubkeys, _, rfl, pubkeys, rest, ⟨rfl, hlen⟩, ?_⟩
  rw [hfields]
  rfl

theorem decode_of_valid {lock : LockEnum} (h : lock.Valid) (rest : Bytes) :
    decode.run (lock.encode ++ rest) = .ok (lock, rest) := by
  rw [decode, encode, List.cons_append, Reader.run_bind_of_ok (Reader.run_byte.mpr rfl)]
  cases lock with
  | schnorr pubkey => exact Reader.run_bind_eq_ok.mpr ⟨pubkey, rest, Reader.run_array.mpr rfl, rfl⟩
  | multisig threshold pubkeys => exact decodeMultisig_of_valid h rest
  | unlocked => rfl

theorem eq_encode_of_decode {buf rest : Bytes} {lock : LockEnum}
    (h : decode.run buf = .ok (lock, rest)) : buf = lock.encode ++ rest := by
  obtain ⟨tag, mid, htag, hbody⟩ := Reader.run_bind_eq_ok.mp h
  rw [Reader.run_byte.mp htag]
  split at hbody
  · next hschnorr =>
    obtain ⟨pubkey, _, hpubkey, hmk⟩ := Reader.run_bind_eq_ok.mp hbody
    cases hmk
    rw [Reader.run_array.mp hpubkey, hschnorr]
    rfl
  · split at hbody
    · next hmultisig =>
      simp only [decodeMultisig, Reader.run_bind_eq_ok, Reader.run_byte, Reader.run_bytes] at hbody
      obtain ⟨threshold, _, ht, n, _, hn, pubkeys, _, ⟨hpks, _⟩, hmk⟩ := hbody
      split at hmk
      · next hfields =>
        cases hmk
        rw [ht, hn, hpks, hmultisig, encode, body, validateMultisigFields_count hfields]
        rfl
      · cases hmk
    · split at hbody
      · next hunlocked =>
        cases hbody
        rw [hunlocked]
        rfl
      · cases hbody

/-- The cursor decoder reads the encodings of the valid locks and nothing else. -/
theorem decode_iff {buf rest : Bytes} {lock : LockEnum} :
    decode.run buf = .ok (lock, rest) ↔ lock.Valid ∧ buf = lock.encode ++ rest := by
  constructor
  · intro h
    exact ⟨valid_of_decode h, eq_encode_of_decode h⟩
  · intro ⟨hvalid, hbuf⟩
    rw [hbuf]
    exact decode_of_valid hvalid rest

theorem decode_all_iff {tag : UInt8} {body : Bytes} {lock : LockEnum} :
    decode.run (tag :: body) = .ok (lock, []) ↔
      lock.Valid ∧ tag = lock.tag ∧ body = lock.body := by
  rw [decode_iff, List.append_nil, encode, List.cons.injEq]

/-! ### The body decoders -/

theorem decodeLockBodyUnchecked_body (lock : LockEnum) :
    decodeLockBodyUnchecked lock.tag lock.body = .ok lock := by
  cases lock with
  | schnorr pubkey => exact dif_pos pubkey.property
  | multisig threshold pubkeys => rfl
  | unlocked => rfl

theorem decodeLockBody_body {lock : LockEnum} (h : lock.Valid) :
    decodeLockBody lock.tag lock.body = .ok lock := by
  rw [decodeLockBody, h]
  exact decodeLockBodyUnchecked_body lock

/-- The slice validator accepts the bodies of the valid locks and nothing else. -/
theorem validateLockBody_iff {tag : UInt8} {body : Bytes} :
    validateLockBody tag body = .ok () ↔
      ∃ lock : LockEnum, lock.Valid ∧ tag = lock.tag ∧ body = lock.body := by
  constructor
  · intro h
    have hvalid := h
    unfold validateLockBody at h
    split at h
    · next htag =>
      split at h
      · cases h
      · next hlen =>
        refine ⟨.schnorr ⟨body, not_not.mp hlen⟩, ?_, htag, rfl⟩
        rw [htag] at hvalid
        exact hvalid
    · split at h
      · next htag =>
        split at h
        · next threshold n pubkeys =>
          refine ⟨.multisig threshold pubkeys, ?_, htag, ?_⟩
          · change validateMultisigFields threshold (nPubkeys pubkeys) pubkeys = .ok ()
            rw [validateMultisigFields_count h]
            exact h
          · rw [LockEnum.body, validateMultisigFields_count h]
        · cases h
      · split at h
        · next htag =>
          split at h
          · cases h
          · next hempty =>
            have hnil : body = [] := by simpa using hempty
            exact ⟨.unlocked, rfl, htag, hnil⟩
        · cases h
  · rintro ⟨lock, hvalid, htag, hbody⟩
    rw [htag, hbody]
    exact hvalid

/-! ### Identity -/

theorem encode_inj {lock lock' : LockEnum} (h : lock.Valid) (h' : lock'.Valid)
    (heq : lock.encode = lock'.encode) : lock = lock' := by
  have hrun := decode_of_valid h []
  rw [heq, decode_of_valid h' []] at hrun
  cases hrun
  rfl

/-- Locks whose tagged encodings do not collide are told apart by their identity. -/
theorem eq_of_idHash_eq {P : Primitives} {lock lock' : LockEnum} (h : lock.Valid) (h' : lock'.Valid)
    (noCollision : P.sha256 (Domain.lockId.tag :: lock.encode) =
      P.sha256 (Domain.lockId.tag :: lock'.encode) → lock.encode = lock'.encode)
    (heq : lock.idHash P = lock'.idHash P) : lock = lock' :=
  encode_inj h h' (noCollision heq)

/-! ### Stored users -/

/-- A user written into a buffer of its length is read back through both views. -/
theorem views_of_writeUser {lock : LockEnum} (h : lock.Valid) (balance : UInt64) (initialLockHash : Hash) :
    ∃ out view, writeUser (userTotalLen lock) balance initialLockHash lock = .ok out ∧
      UserView.fromBytes out = .ok view ∧ UserViewMut.fromBytesMut out = .ok view ∧
      view.amount = balance ∧ view.digest = initialLockHash ∧ view.lock = .ok lock := by
  let view : Raw := ⟨KIND_USER, balance, initialLockHash, lock.tag, lock.body⟩
  have hview : Raw.fromBytes "user" KIND_USER view.toBytes = .ok view :=
    Raw.fromBytes_eq_ok.mpr ⟨rfl, rfl, h⟩
  exact ⟨view.toBytes, view, writeRaw_eq rfl, hview, hview, rfl, rfl, decodeLockBodyUnchecked_body lock⟩

end LockEnum

/-- The slice validator accepts what the cursor decoder reads to the end. All decoders
then give one lock, all encoders give its bytes back, a user stored with it is read back
whole, and two such locks of one identity are equal, if the hash does not collide on their
tagged encodings. -/
theorem lockCodecs_agree (tag : UInt8) (body : Bytes) :
    (validateLockBody tag body = .ok () ↔
      ∃ lock, LockEnum.decode.run (tag :: body) = .ok (lock, [])) ∧
    ∀ lock, LockEnum.decode.run (tag :: body) = .ok (lock, []) →
      decodeLockBody tag body = .ok lock ∧
      decodeLockBodyUnchecked tag body = .ok lock ∧
      lock.encode = tag :: body ∧
      lock.wireLen = (tag :: body).length ∧
      lock.writeBody lock.wireBodyLen = .ok body ∧
      (∀ (balance : UInt64) (initialLockHash : Hash),
        ∃ out view, writeUser (userTotalLen lock) balance initialLockHash lock = .ok out ∧
          UserView.fromBytes out = .ok view ∧ UserViewMut.fromBytesMut out = .ok view ∧
          view.amount = balance ∧ view.digest = initialLockHash ∧ view.lock = .ok lock) ∧
      ∀ (P : Primitives) (tag' : UInt8) (body' : Bytes) (lock' : LockEnum),
        LockEnum.decode.run (tag' :: body') = .ok (lock', []) →
        (P.sha256 (Domain.lockId.tag :: lock.encode) =
          P.sha256 (Domain.lockId.tag :: lock'.encode) → lock.encode = lock'.encode) →
        lock.idHash P = lock'.idHash P → lock = lock' := by
  refine ⟨?_, fun lock hdecode => ?_⟩
  · simp only [LockEnum.decode_all_iff, LockEnum.validateLockBody_iff]
  have ⟨hvalid, htag, hbody⟩ := LockEnum.decode_all_iff.mp hdecode
  subst htag hbody
  refine ⟨LockEnum.decodeLockBody_body hvalid, LockEnum.decodeLockBodyUnchecked_body lock, rfl, ?_,
    writeBody_eq lock, LockEnum.views_of_writeUser hvalid,
    fun P tag' body' lock' hdecode' noCollision heq => ?_⟩
  · rw [LockEnum.wireLen, List.length_cons, length_body, Nat.add_comm]
  · exact LockEnum.eq_of_idHash_eq hvalid (LockEnum.valid_of_decode hdecode') noCollision heq

namespace Sample

/-- Three keys in ascending order; the last one differs from lock to lock. -/
def keys (last : UInt8) : Bytes := (Arr.fill 1 : Hash).val ++ (Arr.fill 2 : Hash).val ++ (Arr.fill last : Hash).val

/-- A hash that keeps the last 32 bytes: it tells locks apart that differ in their last key. -/
def lastBytes : Primitives where
  sha256 data := ⟨(data.reverse ++ List.replicate 32 0).take 32, by simp⟩
  keyedHash _ _ := zeroHash
  blake2b _ := zeroHash
  verifySchnorr _ _ _ := true

/-- Two keys of three, stored and read back, with an identity of its own. -/
theorem lockCodecs_twoOfThree :
    validateLockBody MULTISIG_TAG (2 :: 3 :: keys 3) = .ok () ∧
      decodeLockBody MULTISIG_TAG (2 :: 3 :: keys 3) = .ok (.multisig 2 (keys 3)) ∧
      LockEnum.encode (.multisig 2 (keys 3)) = MULTISIG_TAG :: 2 :: 3 :: keys 3 ∧
      (∃ out view, writeUser 140 50 zeroHash (.multisig 2 (keys 3)) = .ok out ∧
        UserView.fromBytes out = .ok view ∧ view.amount = 50 ∧ view.lock = .ok (.multisig 2 (keys 3))) ∧
      LockEnum.idHash lastBytes (.multisig 2 (keys 3)) ≠ LockEnum.idHash lastBytes (.multisig 2 (keys 4)) := by
  have hdecode (last : UInt8) (hlast : last = 3 ∨ last = 4) :
      LockEnum.decode.run (MULTISIG_TAG :: 2 :: 3 :: keys last) = .ok (.multisig 2 (keys last), []) := by
    rcases hlast with rfl | rfl <;> rfl
  obtain ⟨hvalid, hagree⟩ := lockCodecs_agree MULTISIG_TAG (2 :: 3 :: keys 3)
  obtain ⟨hbody, -, hencode, -, -, hstored, hidentity⟩ := hagree _ (hdecode 3 (.inl rfl))
  obtain ⟨out, view, hwrite, hview, -, hamount, -, hlock⟩ := hstored 50 zeroHash
  refine ⟨hvalid.mpr ⟨_, hdecode 3 (.inl rfl)⟩, hbody, hencode, ⟨out, view, hwrite, hview, hamount, hlock⟩, ?_⟩
  intro heq
  have hlocks := hidentity lastBytes _ _ _ (hdecode 4 (.inr rfl)) (fun h => absurd h (by decide +kernel)) heq
  exact absurd hlocks (by decide +kernel)

end Sample

end Vprogs.Runtime
