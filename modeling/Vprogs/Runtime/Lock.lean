import Vprogs.Abi.Journal
import Vprogs.Slice

/-!
Locks: the condition stored with a resource that a transaction has to satisfy
to act on it. The wire codec used in instructions and the body codec used in
stored resources share one shape; unlocking matches a lock against the keys
resolved for its resource. Indexing and unchecked decoding that would abort
are modelled as panics.
-/
namespace Vprogs.Runtime

open Abi

/-- Cryptographic primitives the runtime calls. -/
structure Primitives where
  sha256 : Bytes → Hash
  keyedHash : KeyedHash
  blake2b : Bytes → Hash
  verifySchnorr : Hash → Arr 64 → Hash → Bool

/-- One-byte domain tags of the runtime's hash derivations. -/
inductive Domain where
  | programResource
  | userResource
  | sigMessage
  | lockId
  deriving DecidableEq

def Domain.tag : Domain → UInt8
  | programResource => 0
  | userResource => 1
  | sigMessage => 2
  | lockId => 3

def Primitives.hashWithDomain (P : Primitives) (domain : Domain) (data : Bytes) : Hash :=
  P.sha256 (domain.tag :: data)

/-- A runtime step returns, reports an error or aborts. -/
abbrev Run (α : Type) := Outcome Error α

def err {α : Type} (msg : String) : Run α := .error (.err (.decode msg))

/-- A check whose failure message becomes a decode error. -/
def orErr {α : Type} (x : Except String α) : Run α :=
  match x with
  | .ok a => .ok a
  | .error msg => err msg

inductive LockEnum where
  | schnorr (pubkey : Hash)
  | multisig (threshold : UInt8) (pubkeys : Bytes)
  | unlocked
  deriving DecidableEq

def SCHNORR_TAG : UInt8 := 0x01
def MULTISIG_TAG : UInt8 := 0x02
def UNLOCKED_TAG : UInt8 := 0x03

def MULTISIG_MAX_PUBKEYS : UInt8 := 16

/-- The 32-byte keys of a key table; a trailing remainder is dropped. -/
def asChunks (pubkeys : Bytes) : List Bytes := Reader.chunks 32 (pubkeys.length / 32) pubkeys

def isStrictlyAscending : List Bytes → Bool
  | a :: b :: rest => decide (a < b) && isStrictlyAscending (b :: rest)
  | _ => true

def validateMultisigFields (threshold nPubkeys : UInt8) (pubkeys : Bytes) : Except String Unit :=
  if threshold = 0 ∨ nPubkeys = 0 ∨ nPubkeys < threshold ∨ MULTISIG_MAX_PUBKEYS < nPubkeys then
    .error "lock.multisig: invalid threshold/n_pubkeys"
  else if pubkeys.length % 32 ≠ 0 ∨ pubkeys.length / 32 ≠ nPubkeys.toNat then
    .error "lock.multisig: body length doesn't match n_pubkeys"
  else if !isStrictlyAscending (asChunks pubkeys) then
    .error "lock.multisig: pubkeys not strictly ascending"
  else .ok ()

namespace LockEnum

def tag : LockEnum → UInt8
  | schnorr _ => SCHNORR_TAG
  | multisig _ _ => MULTISIG_TAG
  | unlocked => UNLOCKED_TAG

def decodeMultisig : Reader Error LockEnum := do
  let threshold ← Reader.byte "lock.multisig.threshold"
  let nPubkeys ← Reader.byte "lock.multisig.n_pubkeys"
  let pubkeys ← Reader.bytes (nPubkeys.toNat * 32) "lock.multisig.pubkeys"
  match validateMultisigFields threshold nPubkeys pubkeys with
  | .ok () => pure (multisig threshold pubkeys)
  | .error msg => Reader.failDecode msg

/-- `decode_lock`. -/
def decode : Reader Error LockEnum := do
  let tag ← Reader.byte "lock.tag"
  if tag = SCHNORR_TAG then do
    let pubkey ← Reader.array 32 "lock.schnorr.pubkey"
    pure (schnorr pubkey)
  else if tag = MULTISIG_TAG then decodeMultisig
  else if tag = UNLOCKED_TAG then pure unlocked
  else Reader.failDecode "lock: unknown tag"

def nPubkeys (pubkeys : Bytes) : UInt8 := UInt8.ofNat (pubkeys.length / 32)

/-- The bytes of `Lock::encode`, without the tag. -/
def body : LockEnum → Bytes
  | schnorr pubkey => pubkey.val
  | multisig threshold pubkeys => threshold :: nPubkeys pubkeys :: pubkeys
  | unlocked => []

def encode (lock : LockEnum) : Bytes := lock.tag :: lock.body

def wireBodyLen : LockEnum → Nat
  | schnorr _ => 32
  | multisig _ pubkeys => 2 + pubkeys.length
  | unlocked => 0

/-- The tagged encoding's length. -/
def wireLen (lock : LockEnum) : Nat := 1 + lock.wireBodyLen

/-- Writes the body into a buffer of `outLen` bytes; every copy needs a source
of the destination's length. -/
def writeBody (lock : LockEnum) (outLen : Nat) : Run Bytes :=
  match lock with
  | schnorr pubkey => do
      check (outLen == 32) "copy_from_slice: length mismatch"
      pure pubkey.val
  | multisig threshold pubkeys => do
      check (decide (2 ≤ outLen)) "index out of bounds"
      check (outLen - 2 == pubkeys.length) "copy_from_slice: length mismatch"
      pure (threshold :: nPubkeys pubkeys :: pubkeys)
  | unlocked => do
      check (outLen == 0) "assertion failed: out.is_empty()"
      pure []

/-- The identity of a lock: the hash of its tagged encoding. -/
def idHash (P : Primitives) (lock : LockEnum) : Hash := P.hashWithDomain .lockId lock.encode

end LockEnum

/-! ### Stored lock bodies -/

def validateLockBody (tag : UInt8) (body : Bytes) : Except String Unit :=
  if tag = SCHNORR_TAG then
    if body.length ≠ 32 then .error "lock.schnorr: body must be 32 bytes" else .ok ()
  else if tag = MULTISIG_TAG then
    match body with
    | threshold :: nPubkeys :: pubkeys => validateMultisigFields threshold nPubkeys pubkeys
    | _ => .error "lock.multisig: body too short"
  else if tag = UNLOCKED_TAG then
    if !body.isEmpty then .error "lock.unlocked: body must be empty" else .ok ()
  else .error "lock: unknown tag"

def decodeLockBodyUnchecked (tag : UInt8) (body : Bytes) : Run LockEnum :=
  if tag = SCHNORR_TAG then
    if h : body.length = 32 then .ok (.schnorr ⟨body, h⟩)
    else .error (.panic "lock.schnorr: body validated")
  else if tag = MULTISIG_TAG then
    match body with
    | threshold :: _ :: pubkeys => .ok (.multisig threshold pubkeys)
    | _ => .error (.panic "lock.multisig: body validated")
  else if tag = UNLOCKED_TAG then .ok .unlocked
  else .error (.panic "lock: tag validated")

def decodeLockBody (tag : UInt8) (body : Bytes) : Run LockEnum := do
  orErr (validateLockBody tag body)
  decodeLockBodyUnchecked tag body

/-! ### Unlocking -/

/-- Keys resolved for each resource index: single keys, and one aggregated
multisig contribution per resource. -/
structure AuthContext where
  schnorr : List (UInt8 × Hash) := []
  multisig : List (UInt8 × List Hash) := []

/-- The bucket's entries for one resource, found by two binary searches. -/
def sliceForResource {α : Type} (bucket : List (UInt8 × α)) (resourceIdx : UInt8) :
    Run (List (UInt8 × α)) :=
  let start := slicePartitionPoint (fun e => decide (e.1 < resourceIdx)) bucket
  let fin := slicePartitionPoint (fun e => decide (e.1 ≤ resourceIdx)) bucket
  if start ≤ fin then .ok ((bucket.take fin).drop start)
  else .error (.panic "slice index starts after its end")

/-- The inner loop of the merge walk: skip contributed keys below the lock's key
and consume it if it is there. -/
def advance (lockPk : Bytes) : List Bytes → Bool × List Bytes
  | [] => (false, [])
  | c :: cs =>
    if c < lockPk then advance lockPk cs
    else if c = lockPk then (true, cs)
    else (false, c :: cs)

/-- The merge walk over two ascending key lists; a lock has at most sixteen keys,
so the match counter stays far below its width. -/
def mergeWalk (threshold : Nat) : List Bytes → List Bytes → Nat → Bool
  | [], _, matched => decide (threshold ≤ matched)
  | pk :: pks, contrib, matched =>
    let (hit, rest) := advance pk contrib
    let matched := matched + hit.toNat
    if threshold ≤ matched then true else mergeWalk threshold pks rest matched

def LockEnum.unlock (lock : LockEnum) (resourceIdx : UInt8) (ctx : AuthContext) : Run Bool :=
  match lock with
  | .schnorr pubkey => do
      match ← sliceForResource ctx.schnorr resourceIdx with
      | [(_, key)] => pure (key == pubkey)
      | _ => pure false
  | .multisig threshold pubkeys => do
      match ← sliceForResource ctx.multisig resourceIdx with
      | [(_, keys)] =>
        let contrib := keys.map Subtype.val
        pure (isStrictlyAscending contrib &&
          mergeWalk threshold.toNat (asChunks pubkeys) contrib 0)
      | _ => pure false
  | .unlocked => pure true

end Vprogs.Runtime
