import Vprogs.Runtime.Ix

/-!
Resolving signers: each signer entry yields a key, from a signature over the
transaction or from the output a transaction input spends, filed under its
resource index.
-/
namespace Vprogs.Runtime

open Abi

/-- The genesis key baked into the runtime. -/
def GENESIS_SCHNORR_BYTES : Hash :=
  ⟨[0xF9, 0x30, 0x8A, 0x01, 0x92, 0x58, 0xC3, 0x10, 0x49, 0x34, 0x4F, 0x85, 0xF8, 0x9D, 0x52, 0x29,
    0xB5, 0x31, 0xC8, 0x45, 0x83, 0x6F, 0x99, 0xB0, 0x86, 0x01, 0xF1, 0x13, 0xBC, 0xE0, 0x36, 0xF9],
    by decide⟩

def computeSigMessage (P : Primitives) (restPreimage payloadPresig : Bytes) : Hash :=
  P.hashWithDomain .sigMessage (writeBlob restPreimage ++ writeBlob payloadPresig)

structure SignerResolveContext where
  payloadBytes : Bytes
  currentRestPreimage : Bytes
  payloadPresig : Bytes
  resources : List Resource

/-- `get(off..).and_then(first_chunk)`. -/
def chunkAt (n : Nat) (bytes : Bytes) (off : Nat) : Option (Arr n) :=
  if h : off + n ≤ bytes.length then some ⟨(bytes.drop off).take n, by simp; omega⟩ else none

/-- `get(off..off.saturating_add(len))` with 32-bit addresses. -/
def rangeAt (bytes : Bytes) (off len : Nat) : Option Bytes :=
  let fin := min (off + len) (2 ^ 32 - 1)
  if off ≤ fin ∧ fin ≤ bytes.length then some ((bytes.take fin).drop off) else none

section

variable (P : Primitives) (ctx : SignerResolveContext)

def sigMsg : Hash := computeSigMessage P ctx.currentRestPreimage ctx.payloadPresig

def readSigAtOffset (sigOffset : UInt32) : Run (Arr 64) :=
  okOr (chunkAt 64 ctx.payloadBytes sigOffset.toNat) (.decode "signer: sig_offset out of range")

/-- The lock stored in the signer's resource. -/
def readLock (resourceIdx : UInt8) : Run LockEnum := do
  let resource ← okOr ctx.resources[resourceIdx.toNat]? (.decode "signer: resource_idx out of range")
  let kind := kindOf resource.data
  if kind = some KIND_CONFIG then do
    let view ← orErr (ConfigView.fromBytes resource.data)
    view.lock
  else if kind = some KIND_USER then do
    let view ← orErr (UserView.fromBytes resource.data)
    view.lock
  else err "signer: unknown or absent resource kind"

def readSchnorrLockPubkey (resourceIdx : UInt8) : Run Hash := do
  match ← readLock ctx resourceIdx with
  | .schnorr pubkey => pure pubkey
  | _ => err "signer.schnorr: target resource is not a Schnorr lock"

def readMultisigLockPubkeyAt (resourceIdx pubkeyIdx : UInt8) : Run Hash := do
  match ← readLock ctx resourceIdx with
  | .multisig _ pubkeys =>
    if LockEnum.nPubkeys pubkeys ≤ pubkeyIdx then
      err "signer.multisig_schnorr: pubkey_idx out of range"
    else
      okOr (chunkAt 32 pubkeys (pubkeyIdx.toNat * 32))
        (.decode "signer.multisig_schnorr: pubkey slice oob")
  | _ => err "signer.multisig_schnorr: target resource is not a Multisig lock"

def recoverWitnessPubkey (inputIdx : UInt8)
    (restPreimageOffset restPreimageLen payloadDigestOffset : UInt32) : Run Hash := do
  let restPreimage ← okOr
    (rangeAt ctx.payloadBytes restPreimageOffset.toNat restPreimageLen.toNat)
    (.decode "signer.witness: rest_preimage range out of bounds")
  let payloadDigest ← okOr (chunkAt 32 ctx.payloadBytes payloadDigestOffset.toNat)
    (.decode "signer.witness: payload_digest range out of bounds")
  let recovered ← lift (recoverPrevTxV1P2pkPubkey P ctx.currentRestPreimage inputIdx restPreimage
    payloadDigest)
  okOr recovered (.decode "signer.witness: prev output is not P2PK")

/-- A key named by the resource, confirmed by a signature. -/
def verifiedKey (pubkey : Hash) (sigOffset : UInt32) (failure : String) : Run Hash := do
  let sig ← readSigAtOffset ctx sigOffset
  if P.verifySchnorr pubkey sig (sigMsg P ctx) then pure pubkey else err failure

def addSchnorr (auth : AuthContext) (resourceIdx : UInt8) (key : Hash) : AuthContext :=
  { auth with schnorr := auth.schnorr ++ [(resourceIdx, key)] }

/-- A contribution joins the last entry when that is for the same resource. -/
def appendMultisigContrib (bucket : List (UInt8 × List Hash)) (resourceIdx : UInt8) (key : Hash) :
    List (UInt8 × List Hash) :=
  match bucket.getLast? with
  | some (lastIdx, keys) =>
    if lastIdx = resourceIdx then bucket.dropLast ++ [(lastIdx, keys ++ [key])]
    else bucket ++ [(resourceIdx, [key])]
  | none => [(resourceIdx, [key])]

def addMultisig (auth : AuthContext) (resourceIdx : UInt8) (key : Hash) : AuthContext :=
  { auth with multisig := appendMultisigContrib auth.multisig resourceIdx key }

def resolveSigner (auth : AuthContext) (resourceIdx : UInt8) : SignerEnum → Run AuthContext
  | .schnorrSigPtr sigOffset => do
      let pubkey ← readSchnorrLockPubkey ctx resourceIdx
      let key ← verifiedKey P ctx pubkey sigOffset "signer.schnorr: invalid signature"
      pure (addSchnorr auth resourceIdx key)
  | .genesisSchnorrSigPtr sigOffset => do
      let _ ← okOr ctx.resources[resourceIdx.toNat]?
        (.decode "signer.genesis_schnorr: resource_idx out of range")
      let key ← verifiedKey P ctx GENESIS_SCHNORR_BYTES sigOffset
        "signer.genesis_schnorr: invalid signature"
      pure (addSchnorr auth resourceIdx key)
  | .prevTxV1Witness inputIdx rpOff rpLen pdOff => do
      let key ← recoverWitnessPubkey P ctx inputIdx rpOff rpLen pdOff
      pure (addSchnorr auth resourceIdx key)
  | .multisigSchnorrSigPtr pubkeyIdx sigOffset => do
      let pubkey ← readMultisigLockPubkeyAt ctx resourceIdx pubkeyIdx
      let key ← verifiedKey P ctx pubkey sigOffset "signer.multisig_schnorr: invalid signature"
      pure (addMultisig auth resourceIdx key)
  | .multisigPrevTxV1Witness inputIdx rpOff rpLen pdOff => do
      let key ← recoverWitnessPubkey P ctx inputIdx rpOff rpLen pdOff
      pure (addMultisig auth resourceIdx key)

def resolveSigners (auth : AuthContext) : List (UInt8 × SignerEnum) → Run AuthContext
  | [] => .ok auth
  | (resourceIdx, signer) :: rest => do
      let auth ← resolveSigner P ctx auth resourceIdx signer
      resolveSigners auth rest

end

end Vprogs.Runtime
