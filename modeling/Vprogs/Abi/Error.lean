import Vprogs.Codec.Reader

/-!
Errors of the guest interface. An error a handler returns is written into the
transaction journal, so it has a wire format of its own.
-/
namespace Vprogs.Abi

inductive Error where
  | guest (code : UInt32)
  | decode (msg : String)
  deriving DecidableEq, Repr

instance : FromCodec Error where
  fromCodec
    | .decode field => .decode field
    | .zeroCopy msg => .decode msg

abbrev Result (α : Type) := Except Error α

/-- Guest error codes. -/
inductive ErrorCode where
  | versionIncompatible
  | invalidExitSpkTag
  | invalidExitSpk
  deriving DecidableEq

def ErrorCode.code : ErrorCode → UInt32
  | versionIncompatible => 1
  | invalidExitSpkTag => 2
  | invalidExitSpk => 3

def ErrorCode.toError (c : ErrorCode) : Error := .guest c.code

namespace Error

def GUEST : UInt8 := 0x00
def DECODE : UInt8 := 0x01

def decodeError : Reader Error Error := do
  let variant ← Reader.byte "error_variant"
  if variant = GUEST then do
    let code ← Reader.leU32 "error_code"
    pure (.guest code)
  else if variant = DECODE then do
    let msg ← Reader.string "error_msg"
    pure (.decode msg)
  else Reader.fail (.decode "invalid error discriminant")

def encode : Error → Bytes
  | .guest code => GUEST :: leBytes 4 code.toNat
  | .decode msg => DECODE :: writeBlob (utf8 msg)

/-- The message, if any, is short enough for its length prefix. -/
def Encodable : Error → Prop
  | .guest _ => True
  | .decode msg => (utf8 msg).length < 2 ^ 32

instance : DecidablePred Encodable
  | .guest _ => inferInstanceAs (Decidable True)
  | .decode msg => inferInstanceAs (Decidable ((utf8 msg).length < 2 ^ 32))

/-- A message assembled around a short name is short. -/
theorem encodable_around {before name after : String} (hname : name.utf8ByteSize < 2 ^ 16)
    (hbefore : before.utf8ByteSize < 2 ^ 16) (hafter : after.utf8ByteSize < 2 ^ 16) :
    Encodable (.decode (toString before ++ toString name ++ toString after)) := by
  change (before ++ name ++ after).utf8ByteSize < 2 ^ 32
  rw [String.utf8ByteSize_append, String.utf8ByteSize_append]
  omega

theorem decodeError_encode {e : Error} (h : e.Encodable) (rest : Bytes) :
    decodeError.run (e.encode ++ rest) = .ok (e, rest) := by
  cases e with
  | guest code =>
    simp only [decodeError, encode, List.cons_append, Reader.run_bind_eq_ok, Reader.run_byte]
    refine ⟨GUEST, _, rfl, ?_⟩
    rw [if_pos rfl, Reader.run_bind_eq_ok]
    exact ⟨code, rest, Reader.run_leU32.mpr rfl, rfl⟩
  | decode msg =>
    simp only [decodeError, encode, List.cons_append, Reader.run_bind_eq_ok, Reader.run_byte]
    refine ⟨DECODE, _, rfl, ?_⟩
    rw [if_neg (by decide), if_pos rfl, Reader.run_bind_eq_ok]
    exact ⟨msg, rest, Reader.run_string_utf8 h, rfl⟩

end Error

end Vprogs.Abi
