import Vprogs.Abi.Error

/-!
Exits: withdrawals from the lane back to the base chain. A destination is one
of the three standard script public keys, and exits are streamed as
back-to-back (destination, amount) entries.
-/
namespace Vprogs.Abi

inductive StandardSpk where
  | pubKey (k : Arr 32)
  | pubKeyEcdsa (k : Arr 33)
  | scriptHash (h : Arr 32)
  deriving DecidableEq

namespace Tag

def PUB_KEY : UInt8 := 0
def PUB_KEY_ECDSA : UInt8 := 1
def SCRIPT_HASH : UInt8 := 8

end Tag

namespace StandardSpk

def decode : Reader Error StandardSpk := do
  let tag ← Reader.byte "exit_tag"
  if tag = Tag.PUB_KEY then do
    let k ← Reader.array 32 "exit_pubkey"
    pure (.pubKey k)
  else if tag = Tag.PUB_KEY_ECDSA then do
    let k ← Reader.array 33 "exit_pubkey_ecdsa"
    pure (.pubKeyEcdsa k)
  else if tag = Tag.SCRIPT_HASH then do
    let h ← Reader.array 32 "exit_script_hash"
    pure (.scriptHash h)
  else Reader.fail ErrorCode.invalidExitSpkTag.toError

def encode : StandardSpk → Bytes
  | .pubKey k => Tag.PUB_KEY :: k.val
  | .pubKeyEcdsa k => Tag.PUB_KEY_ECDSA :: k.val
  | .scriptHash h => Tag.SCRIPT_HASH :: h.val

/-- The script the destination is paid with. -/
def toScriptBytes : StandardSpk → Bytes
  | .pubKey k => 0x20 :: (k.val ++ [0xac])
  | .pubKeyEcdsa k => 0x21 :: (k.val ++ [0xab])
  | .scriptHash h => 0xaa :: 0x20 :: (h.val ++ [0x87])

theorem decode_encode (dest : StandardSpk) (rest : Bytes) :
    decode.run (dest.encode ++ rest) = .ok (dest, rest) := by
  cases dest with
  | pubKey k =>
    rw [decode, Reader.run_bind_eq_ok]
    refine ⟨Tag.PUB_KEY, k.val ++ rest, Reader.run_byte.mpr rfl, ?_⟩
    rw [if_pos rfl, Reader.run_bind_eq_ok]
    exact ⟨k, rest, Reader.run_array.mpr rfl, rfl⟩
  | pubKeyEcdsa k =>
    rw [decode, Reader.run_bind_eq_ok]
    refine ⟨Tag.PUB_KEY_ECDSA, k.val ++ rest, Reader.run_byte.mpr rfl, ?_⟩
    rw [if_neg (by decide), if_pos rfl, Reader.run_bind_eq_ok]
    exact ⟨k, rest, Reader.run_array.mpr rfl, rfl⟩
  | scriptHash h =>
    rw [decode, Reader.run_bind_eq_ok]
    refine ⟨Tag.SCRIPT_HASH, h.val ++ rest, Reader.run_byte.mpr rfl, ?_⟩
    rw [if_neg (by decide), if_neg (by decide), if_pos rfl, Reader.run_bind_eq_ok]
    exact ⟨h, rest, Reader.run_array.mpr rfl, rfl⟩

/-- A destination is read from its own encoding only. -/
theorem encode_of_decode {buf rest : Bytes} {dest : StandardSpk}
    (h : decode.run buf = .ok (dest, rest)) : buf = dest.encode ++ rest := by
  have ⟨tag, mid, htag, hbody⟩ := Reader.run_bind_eq_ok.mp h
  rw [Reader.run_byte.mp htag]
  clear h htag
  split at hbody
  · next htag =>
    have ⟨k, _, hk, hpure⟩ := Reader.run_bind_eq_ok.mp hbody
    cases hpure
    rw [htag, Reader.run_array.mp hk]
    rfl
  · split at hbody
    · next htag =>
      have ⟨k, _, hk, hpure⟩ := Reader.run_bind_eq_ok.mp hbody
      cases hpure
      rw [htag, Reader.run_array.mp hk]
      rfl
    · split at hbody
      · next htag =>
        have ⟨k, _, hk, hpure⟩ := Reader.run_bind_eq_ok.mp hbody
        cases hpure
        rw [htag, Reader.run_array.mp hk]
        rfl
      · cases hbody

end StandardSpk

structure Exit where
  dest : StandardSpk
  amount : UInt64
  deriving DecidableEq

namespace Exit

def encode (e : Exit) : Bytes := e.dest.encode ++ leBytes 8 e.amount.toNat

/-- One step of `ExitsIter`. -/
def decode : Reader Error Exit := do
  let dest ← StandardSpk.decode
  let amount ← Reader.leU64 "exit_amount"
  pure ⟨dest, amount⟩

theorem decode_encode (e : Exit) (rest : Bytes) : decode.run (e.encode ++ rest) = .ok (e, rest) := by
  rw [decode, Reader.run_bind_eq_ok, encode, List.append_assoc]
  refine ⟨e.dest, _, StandardSpk.decode_encode _ _, ?_⟩
  rw [Reader.run_bind_eq_ok]
  exact ⟨e.amount, rest, Reader.run_leU64.mpr rfl, rfl⟩

theorem encode_ne_nil (e : Exit) : e.encode ≠ [] := by
  cases e with
  | mk dest amount => cases dest <;> simp [encode, StandardSpk.encode]

end Exit

/-- A wire-format exit log. -/
abbrev Exits := Bytes

def Exits.iter (buf : Exits) : List (Result Exit) := Exit.decode.items buf

/-- The exit log under construction. -/
structure ExitSink where
  buf : Bytes := []
  deriving DecidableEq

namespace ExitSink

def emit (sink : ExitSink) (dest : StandardSpk) (amount : UInt64) : Result ExitSink :=
  .ok ⟨sink.buf ++ Exit.encode ⟨dest, amount⟩⟩

end ExitSink

theorem exits_iter_flatMap (exits : List Exit) : Exits.iter (exits.flatMap Exit.encode) = exits.map .ok :=
  Reader.items_flatMap Exit.encode_ne_nil fun e _ rest => Exit.decode_encode e rest

abbrev Hash := Arr 32

/-- The all-zero sentinel. -/
def zeroHash : Hash := Arr.fill 0

/-- The deposit address a transaction credited, at most one. -/
structure DepositSink where
  hash : Hash := zeroHash
  deriving DecidableEq

def DepositSink.set (sink : DepositSink) (hash : Hash) : Result DepositSink :=
  if sink.hash = zeroHash then .ok ⟨hash⟩
  else if sink.hash = hash then .ok sink
  else .error (.decode "deposit_spk_hash set twice with differing values")

end Vprogs.Abi
