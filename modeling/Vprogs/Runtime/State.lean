import Vprogs.Runtime.Lock

/-!
Typed resources. A config and a user resource have one layout: a kind byte, a
64-bit amount, a 32-byte digest, a lock tag and the lock's body as the rest.
A config's amount is the minimum withdrawal and its digest the covenant id; a
user's amount is the balance and its digest the hash of the initial lock.
-/
namespace Vprogs.Runtime

open Abi

def KIND_CONFIG : UInt8 := 0
def KIND_USER : UInt8 := 1

def HEADER_LEN : Nat := 42

/-- The wire layout shared by both kinds. -/
structure Raw where
  kind : UInt8
  amount : UInt64
  digest : Hash
  lockTag : UInt8
  lockBody : Bytes
  deriving DecidableEq

namespace Raw

def toBytes (raw : Raw) : Bytes :=
  raw.kind :: (leBytes 8 raw.amount.toNat ++ (raw.digest.val ++ raw.lockTag :: raw.lockBody))

def read : Reader CodecError Raw := do
  let kind ← Reader.byte "kind"
  let amount ← Reader.leU64 "amount"
  let digest ← Reader.array 32 "digest"
  let lockTag ← Reader.byte "lock_tag"
  let lockBody ← get
  pure ⟨kind, amount, digest, lockTag, lockBody⟩

/-- The cast to the layout, which fails only on a short buffer. -/
def refFromBytes (bytes : Bytes) : Option Raw :=
  match read.run bytes with
  | .ok (raw, _) => some raw
  | .error _ => none

theorem refFromBytes_eq_some {bytes : Bytes} {raw : Raw} :
    refFromBytes bytes = some raw ↔ bytes = raw.toBytes := by
  have hread : ∀ rest, read.run bytes = .ok (raw, rest) ↔
      bytes = raw.toBytes ∧ rest = raw.lockBody := by
    intro rest
    simp only [read, Reader.run_bind_eq_ok, Reader.run_byte, Reader.run_leU64, Reader.run_array]
    constructor
    · rintro ⟨kind, _, hk, amount, _, ha, digest, _, hd, tag, _, ht, body, mid, hget, hpure⟩
      cases hget
      cases hpure
      exact ⟨by rw [hk, ha, hd, ht]; rfl, rfl⟩
    · rintro ⟨hb, hr⟩
      subst hr
      exact ⟨_, _, hb, _, _, rfl, _, _, rfl, _, _, rfl, _, _, rfl, rfl⟩
  unfold refFromBytes
  constructor
  · intro h
    split at h
    · next rest hrun =>
      cases h
      exact ((hread rest).mp hrun).1
    · cases h
  · intro h
    rw [(hread raw.lockBody).mpr ⟨h, rfl⟩]

/-- The typed view: the right kind and a well-formed lock. -/
def fromBytes (what : String) (kind : UInt8) (bytes : Bytes) : Except String Raw :=
  if bytes.length < HEADER_LEN then .error s!"{what}: too short for header"
  else match refFromBytes bytes with
    | none => .error s!"{what}: invalid layout"
    | some raw =>
      if raw.kind ≠ kind then .error s!"{what}: wrong kind byte"
      else match validateLockBody raw.lockTag raw.lockBody with
        | .ok () => .ok raw
        | .error msg => .error msg

theorem length_toBytes (raw : Raw) : raw.toBytes.length = HEADER_LEN + raw.lockBody.length := by
  simp [toBytes, HEADER_LEN]
  omega

theorem fromBytes_eq_ok {what : String} {kind : UInt8} {bytes : Bytes} {raw : Raw} :
    fromBytes what kind bytes = .ok raw ↔
      bytes = raw.toBytes ∧ raw.kind = kind ∧ validateLockBody raw.lockTag raw.lockBody = .ok () := by
  unfold fromBytes
  constructor
  · intro h
    split at h
    · cases h
    · split at h
      · cases h
      · next found hfound =>
        split at h
        · cases h
        · next hkind =>
          split at h
          · next hvalid =>
            cases h
            exact ⟨refFromBytes_eq_some.mp hfound, not_not.mp hkind, hvalid⟩
          · cases h
  · intro ⟨hb, hk, hv⟩
    have hlen : ¬ bytes.length < HEADER_LEN := by
      rw [hb, length_toBytes]
      omega
    rw [if_neg hlen, refFromBytes_eq_some.mpr hb]
    simp only [hk, hv, ne_eq, not_true_eq_false, if_false]

/-- The lock of a validated view. -/
def lock (raw : Raw) : Run LockEnum := decodeLockBodyUnchecked raw.lockTag raw.lockBody

end Raw

def UserView.fromBytes (bytes : Bytes) : Except String Raw := Raw.fromBytes "user" KIND_USER bytes

/-- The mutable view checks the bytes as the shared one does. -/
def UserViewMut.fromBytesMut (bytes : Bytes) : Except String Raw :=
  Raw.fromBytes "user" KIND_USER bytes

def ConfigView.fromBytes (bytes : Bytes) : Except String Raw :=
  Raw.fromBytes "config" KIND_CONFIG bytes

/-- `write_config` and `write_user`: the whole buffer is overwritten. -/
def writeRaw (what : String) (kind : UInt8) (outLen : Nat) (amount : UInt64) (digest : Hash)
    (lock : LockEnum) : Run Bytes :=
  if outLen ≠ HEADER_LEN + lock.wireBodyLen then err s!"{what}: write buffer wrong length"
  else do
    let body ← lock.writeBody (outLen - HEADER_LEN)
    pure (Raw.toBytes ⟨kind, amount, digest, lock.tag, body⟩)

def userTotalLen (lock : LockEnum) : Nat := HEADER_LEN + lock.wireBodyLen

def writeUser := writeRaw "user" KIND_USER

def writeConfig := writeRaw "config" KIND_CONFIG

/-! ### Resource ids -/

def deriveProgramResource (P : Primitives) (label : Bytes) : ResourceId :=
  P.hashWithDomain .programResource label

def configResourceId (P : Primitives) : ResourceId := deriveProgramResource P (utf8 "config")

def deriveUserResource (P : Primitives) (initialLockHash : Hash) : ResourceId :=
  P.hashWithDomain .userResource initialLockHash.val

/-! ### Typed access to a resource -/

def kindOf (bytes : Bytes) : Option UInt8 := bytes.head?

/-- `ResourceExt::view_config` and `view_user`. -/
def viewConfig (r : Resource) : Option Raw :=
  if kindOf r.data = some KIND_CONFIG then (ConfigView.fromBytes r.data).toOption else none

def viewUser (r : Resource) : Option Raw :=
  if kindOf r.data = some KIND_USER then (UserView.fromBytes r.data).toOption else none

/-- `modify_user` with a closure over the balance. -/
def modifyUser (r : Resource) (f : UInt64 → Except String UInt64) : Option (Except String Resource) :=
  match viewUser r with
  | none => none
  | some raw => some (do
      let balance ← f raw.amount
      pure (r.setData { raw with amount := balance }.toBytes))

def initUser (r : Resource) (balance : UInt64) (initialLockHash : Hash) (lock : LockEnum) :
    Run Resource :=
  if !r.data.isEmpty then err "init_user: slot is not empty"
  else do
    let r := r.resize (HEADER_LEN + lock.wireBodyLen)
    let data ← writeUser r.data.length balance initialLockHash lock
    pure (r.setData data)

def setUserLock (r : Resource) (newLock : LockEnum) : Run Resource :=
  if kindOf r.data ≠ some KIND_USER then err "set_user_lock: not a user resource"
  else do
    let view ← orErr (UserView.fromBytes r.data)
    let r := r.resize (HEADER_LEN + newLock.wireBodyLen)
    let data ← writeUser r.data.length view.amount view.digest newLock
    pure (r.setData data)

/-! ### Lifecycle within one transaction -/

inductive Lifecycle where
  | new
  | live
  | deleted
  deriving DecidableEq

namespace Lifecycle

def fromResource (r : Resource) : Lifecycle := if r.isNew then .new else .live

def created : Lifecycle → Except String Lifecycle
  | .new => .ok .live
  | .live => .error "lifecycle: double create (slot already live)"
  | .deleted => .error "lifecycle: re-create after delete"

end Lifecycle

end Vprogs.Runtime
