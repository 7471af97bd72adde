import Vprogs.L1.Tx
import Vprogs.Runtime.TxInputs

/-!
Witnesses against the base chain. The parsers read back the inputs and outputs
of a serialized transaction, so a witness that hashes to an outpoint's
transaction id names the output that was spent. The script version of that
output is parsed and then ignored.
-/
namespace Vprogs.Runtime

open Abi L1

/-! ### Parsing a serialized transaction -/

/-- Consensus bounds every count and script far below these widths. -/
structure TxFits (tx : Tx) : Prop where
  inputs : tx.inputs.length < 2 ^ 64
  outputs : tx.outputs.length < 2 ^ 64
  scripts : ∀ o ∈ tx.outputs, o.spk.length < 2 ^ 32

theorem run_skip {n : Nat} {field : String} {bs : Bytes} (rest : Bytes) (h : bs.length = n) :
    (skip n field).run (bs ++ rest) = .ok ((), rest) :=
  Reader.run_bind_eq_ok.mpr ⟨bs, rest, Reader.run_bytes.mpr ⟨rfl, h⟩, rfl⟩

theorem run_leU64_count {n : Nat} (h : n < 2 ^ 64) {field : String} {rest : Bytes} :
    (Reader.leU64 field : Reader Error UInt64).run (leBytes 8 n ++ rest) =
      .ok (UInt64.ofNat n, rest) := by
  rw [Reader.run_leU64, UInt64.toNat_ofNat_of_lt' h]

theorem run_skipInput (i : TxInput) (rest : Bytes) :
    skipInput.run (i.restBytes ++ rest) = .ok ((), rest) := by
  simp only [skipInput, TxInput.restBytes, List.append_assoc, Reader.run_bind_eq_ok]
  have hscript : (skip (asUsize 0) "input.sig_script").run
      (leBytes 8 i.sequence.toNat ++ rest) = .ok ((), leBytes 8 i.sequence.toNat ++ rest) := rfl
  exact ⟨(), _, run_skip _ i.prev.txId.length_val, (), _, run_skip _ (length_leBytes _ _), 0, _,
    Reader.run_leU64.mpr rfl, (), _, hscript, run_skip rest (length_leBytes _ _)⟩

theorem run_repeatSkip (inputs : List TxInput) (rest : Bytes) :
    (repeatSkip skipInput inputs.length).run (inputs.flatMap TxInput.restBytes ++ rest) =
      .ok ((), rest) := by
  induction inputs with
  | nil => rfl
  | cons i inputs ih =>
    rw [List.flatMap_cons, List.append_assoc, List.length_cons, repeatSkip, Reader.run_bind_eq_ok]
    exact ⟨(), _, run_skipInput i _, ih⟩

/-- What the parser returns for an output. -/
def OutputData.ofOutput (o : TxOutput) : OutputData := ⟨o.value, o.spkVersion, o.spk⟩

theorem run_readOutput {o : TxOutput} (h : o.spk.length < 2 ^ 32) (rest : Bytes) :
    readOutput.run (o.bytes ++ rest) = .ok (.ofOutput o, rest) := by
  have hsize : asUsize (UInt64.ofNat o.spk.length) = o.spk.length := by
    have hsize : o.spk.length < UInt64.size := by
      rw [UInt64.size]
      omega
    rw [asUsize, UInt64.toNat_ofNat_of_lt' hsize, Nat.mod_eq_of_lt h]
  simp only [readOutput, TxOutput.bytes, List.append_assoc, Reader.run_bind_eq_ok]
  refine ⟨o.value, _, Reader.run_leU64.mpr rfl, o.spkVersion, _, Reader.run_leU16.mpr rfl, _, _,
    run_leU64_count (by omega), o.spk, _, Reader.run_bytes.mpr ⟨rfl, hsize.symm⟩, ?_⟩
  cases o.covenant with
  | none => exact ⟨0, rest, Reader.run_byte.mpr rfl, rfl⟩
  | some b =>
    refine ⟨1, leBytes 2 b.authInput.toNat ++ (b.covenantId.val ++ rest),
      Reader.run_byte.mpr (by simp [TxOutput.covenantBytes]), ?_⟩
    rw [if_pos (by decide)]
    simp only [Reader.run_bind_eq_ok]
    exact ⟨(), _, run_skip _ (length_leBytes _ _), (), rest,
      run_skip rest b.covenantId.length_val, rfl⟩

theorem run_readOutputAt {outputs : List TxOutput} (h : ∀ o ∈ outputs, o.spk.length < 2 ^ 32)
    {idx : Nat} {o : TxOutput} (ho : outputs[idx]? = some o) (rest : Bytes) :
    ∃ left, (readOutputAt idx).run (outputs.flatMap TxOutput.bytes ++ rest) =
      .ok (.ofOutput o, left) := by
  induction outputs generalizing idx with
  | nil => cases ho
  | cons first outputs ih =>
    have ⟨hfirst, hrest⟩ := List.forall_mem_cons.mp h
    rw [List.flatMap_cons, List.append_assoc]
    cases idx with
    | zero =>
      cases ho
      exact ⟨_, run_readOutput hfirst _⟩
    | succ idx =>
      have ⟨left, hleft⟩ := ih hrest ho
      exact ⟨left, Reader.run_bind_eq_ok.mpr ⟨_, _, run_readOutput hfirst _, hleft⟩⟩

theorem parse_eq_ok {α : Type} {r : Reader Error α} {buf : Bytes} {a : α} :
    (do let (x, _) ← r.run buf; pure x : Result α) = .ok a ↔ ∃ rest, r.run buf = .ok (a, rest) := by
  match r.run buf with
  | .ok (x, rest) =>
    constructor
    · intro h
      cases h
      exact ⟨rest, rfl⟩
    · intro ⟨_, h⟩
      cases h
      rfl
  | .error e => exact ⟨fun h => (nomatch h), fun ⟨_, h⟩ => (nomatch h)⟩

/-- Skipping to an input and reading its outpoint. -/
theorem run_outpoint {inputs : List TxInput} {idx : Nat} {i : TxInput} (hi : inputs[idx]? = some i)
    (rest : Bytes) :
    ∃ left, (do
      repeatSkip skipInput idx
      let prevTxId ← Reader.array 32 "input.prev_tx_id"
      let prevIndex ← Reader.leU32 "input.prev_index"
      pure (prevTxId, prevIndex) : Reader Error (Hash × UInt32)).run
        (inputs.flatMap TxInput.restBytes ++ rest) = .ok ((i.prev.txId, i.prev.index), left) := by
  obtain ⟨hlt, hget⟩ := List.getElem?_eq_some_iff.mp hi
  have hsplit : inputs = inputs.take idx ++ i :: inputs.drop (idx + 1) := by
    rw [← hget, ← List.drop_eq_getElem_cons hlt, List.take_append_drop]
  have hskip := run_repeatSkip (inputs.take idx)
  rw [List.length_take_of_le (Nat.le_of_lt hlt)] at hskip
  let after := leBytes 8 0 ++ (leBytes 8 i.sequence.toNat ++
    ((inputs.drop (idx + 1)).flatMap TxInput.restBytes ++ rest))
  refine ⟨after, ?_⟩
  rw [hsplit, List.flatMap_append, List.flatMap_cons]
  simp only [TxInput.restBytes, List.append_assoc, Reader.run_bind_eq_ok]
  exact ⟨(), _, hskip _, i.prev.txId, _, Reader.run_array.mpr rfl, i.prev.index, _,
    Reader.run_leU32.mpr rfl, rfl⟩

theorem run_readInputOutpointAt {tx : Tx} (h : TxFits tx) {idx : UInt32} {i : TxInput}
    (hi : tx.inputs[idx.toNat]? = some i) :
    ∃ rest, (readInputOutpointAt idx).run tx.restPreimage =
      .ok ((i.prev.txId, i.prev.index), rest) := by
  have ⟨hlt, _⟩ := List.getElem?_eq_some_iff.mp hi
  have hcount : (UInt64.ofNat tx.inputs.length).toNat = tx.inputs.length :=
    UInt64.toNat_ofNat_of_lt' h.inputs
  have ⟨left, hleft⟩ := run_outpoint hi (leBytes 8 tx.outputs.length ++
    (tx.outputs.flatMap TxOutput.bytes ++ (leBytes 8 tx.lockTime.toNat ++
      (tx.subnetworkId.val ++ (leBytes 8 tx.gas.toNat ++ leBytes 8 0)))))
  refine ⟨left, ?_⟩
  simp only [readInputOutpointAt, Tx.restPreimage, Reader.run_bind_eq_ok]
  refine ⟨(), _, run_skip _ (length_leBytes _ _), _, _, run_leU64_count h.inputs, ?_⟩
  rw [if_neg (by omega)]
  exact hleft

/-- The outpoint parser finds exactly the inputs there are. -/
theorem parseInputOutpointAt_iff {tx : Tx} (h : TxFits tx) {idx : UInt32} {outpoint : Hash × UInt32} :
    parseInputOutpointAt tx.restPreimage idx = .ok outpoint ↔
      ∃ i, tx.inputs[idx.toNat]? = some i ∧ outpoint = (i.prev.txId, i.prev.index) := by
  rw [parseInputOutpointAt, parse_eq_ok]
  constructor
  · intro ⟨rest, hrun⟩
    match hi : tx.inputs[idx.toNat]? with
    | some i =>
      have ⟨_, hi'⟩ := run_readInputOutpointAt h hi
      rw [hrun] at hi'
      cases hi'
      exact ⟨i, rfl, rfl⟩
    | none =>
      have hge := List.getElem?_eq_none_iff.mp hi
      simp only [readInputOutpointAt, Tx.restPreimage, Reader.run_bind_eq_ok] at hrun
      have ⟨_, mid, hskip, n, _, hn, hrun⟩ := hrun
      rw [run_skip _ (length_leBytes _ _)] at hskip
      cases hskip
      rw [run_leU64_count h.inputs] at hn
      cases hn
      rw [if_pos (by rw [UInt64.toNat_ofNat_of_lt' h.inputs]; exact hge)] at hrun
      cases hrun
  · intro ⟨i, hi, heq⟩
    rw [heq]
    exact run_readInputOutpointAt h hi

theorem parseOutputAtIndexV1_of_output {tx : Tx} (h : TxFits tx) (hv : tx.version = 1) {idx : UInt32}
    {o : TxOutput} (ho : tx.outputs[idx.toNat]? = some o) :
    parseOutputAtIndexV1 tx.restPreimage idx = .ok (.ofOutput o) := by
  have ⟨hlt, _⟩ := List.getElem?_eq_some_iff.mp ho
  have hcount : (UInt64.ofNat tx.outputs.length).toNat = tx.outputs.length :=
    UInt64.toNat_ofNat_of_lt' h.outputs
  have hskip := run_repeatSkip tx.inputs
  rw [← UInt64.toNat_ofNat_of_lt' h.inputs] at hskip
  rw [parseOutputAtIndexV1, parse_eq_ok]
  simp only [readOutputAtIndexV1, Tx.restPreimage, Reader.run_bind_eq_ok]
  have ⟨left, hleft⟩ := run_readOutputAt h.scripts ho (leBytes 8 tx.lockTime.toNat ++
    (tx.subnetworkId.val ++ (leBytes 8 tx.gas.toNat ++ leBytes 8 0)))
  refine ⟨left, tx.version, _, Reader.run_leU16.mpr rfl, ?_⟩
  rw [if_neg (not_not.mpr hv)]
  simp only [Reader.run_bind_eq_ok]
  refine ⟨_, _, run_leU64_count h.inputs, (), _, hskip _, _, _, run_leU64_count h.outputs, ?_⟩
  rw [if_neg (by omega)]
  exact hleft

theorem version_of_parseOutput {tx : Tx} {idx : UInt32} {out : OutputData}
    (h : parseOutputAtIndexV1 tx.restPreimage idx = .ok out) : tx.version = 1 := by
  rw [parseOutputAtIndexV1, parse_eq_ok] at h
  have ⟨_, hrun⟩ := h
  simp only [readOutputAtIndexV1, Tx.restPreimage, Reader.run_bind_eq_ok] at hrun
  have ⟨version, _, hversion, hrun⟩ := hrun
  rw [Reader.run_leU16.mpr rfl] at hversion
  cases hversion
  split at hrun
  · cases hrun
  · next hv => exact not_not.mp hv

/-! ### Outputs that pay a key -/

def p2pkScript (pubkey : Hash) : Bytes := (StandardSpk.pubKey pubkey).toScriptBytes

theorem extractP2pkPubkey_eq_some {spk : Bytes} {pubkey : Hash} :
    extractP2pkPubkey spk = some pubkey ↔ spk = p2pkScript pubkey := by
  constructor
  · intro h
    unfold extractP2pkPubkey at h
    split at h
    · next hshape =>
      cases h
      have ⟨hlen, hfirst, hlast⟩ := hshape
      match spk, hlen, hfirst, hlast with
      | b :: tail, hlen, hfirst, hlast =>
        cases hfirst
        have hlen' : tail.length = 33 := Nat.succ.inj hlen
        have hdrop : tail.drop 32 = [0xac] := by
          rw [List.drop_eq_getElem_cons (by omega), List.drop_eq_nil_of_le (by omega)]
          rw [List.getElem?_cons_succ, List.getElem?_eq_getElem (by omega)] at hlast
          rw [Option.some.inj hlast]
        change 0x20 :: tail = 0x20 :: (tail.take 32 ++ [0xac])
        rw [← hdrop, List.take_append_drop]
    · cases h
  · intro h
    subst h
    have hshape : (p2pkScript pubkey).length = 34 ∧ (p2pkScript pubkey)[0]? = some 0x20 ∧
        (p2pkScript pubkey)[33]? = some 0xac := by
      refine ⟨by simp [p2pkScript, StandardSpk.toScriptBytes], rfl, ?_⟩
      simp [p2pkScript, StandardSpk.toScriptBytes]
    rw [extractP2pkPubkey, dif_pos hshape]
    refine congrArg some (Arr.ext ?_)
    simp [p2pkScript, StandardSpk.toScriptBytes]

/-- The output can only be spent by the holder of the key: consensus runs no
script of another version. -/
def Pays (o : OutputData) (pubkey : Hash) : Prop := o.spkVersion = 0 ∧ o.spk = p2pkScript pubkey

theorem recoverPrevTxV1P2pkPubkey_eq_some {P : Primitives} {current rest : Bytes} {inputIdx : UInt8}
    {digest pubkey : Hash} :
    recoverPrevTxV1P2pkPubkey P current inputIdx rest digest = .ok (some pubkey) ↔
      ∃ prevTxId outputIdx out,
        parseInputOutpointAt current (UInt32.ofNat inputIdx.toNat) = .ok (prevTxId, outputIdx) ∧
          txIdV1FromDigest P.keyedHash digest rest = prevTxId ∧
            parseOutputAtIndexV1 rest outputIdx = .ok out ∧ out.spk = p2pkScript pubkey := by
  unfold recoverPrevTxV1P2pkPubkey
  match parseInputOutpointAt current (UInt32.ofNat inputIdx.toNat) with
  | .error e => exact ⟨fun h => (nomatch h), fun ⟨_, _, _, h, _⟩ => (nomatch h)⟩
  | .ok (prevTxId, outputIdx) =>
    change (if txIdV1FromDigest P.keyedHash digest rest ≠ prevTxId then _ else
      (do
        let output ← parseOutputAtIndexV1 rest outputIdx
        pure (extractP2pkPubkey output.spk) : Result (Option Hash))) = _ ↔ _
    split
    · next hne =>
      refine ⟨fun h => (nomatch h), fun ⟨_, _, _, hpair, hid, _⟩ => ?_⟩
      cases hpair
      exact absurd hid hne
    · next hid =>
      match hout : parseOutputAtIndexV1 rest outputIdx with
      | .error e =>
        refine ⟨fun h => (nomatch h), fun ⟨_, _, _, hpair, _, hparse, _⟩ => ?_⟩
        cases hpair
        rw [hout] at hparse
        cases hparse
      | .ok out =>
        constructor
        · intro h
          exact ⟨prevTxId, outputIdx, out, rfl, not_not.mp hid, hout,
            extractP2pkPubkey_eq_some.mp (Except.ok.inj h)⟩
        · intro ⟨_, _, _, hpair, _, hparse, hspk⟩
          cases hpair
          rw [hout] at hparse
          cases hparse
          exact congrArg Except.ok (extractP2pkPubkey_eq_some.mpr hspk)

/-! ### The ledger -/

/-- Transactions of version 0 have an id scheme of their own. -/
def txId (keyedHash : KeyedHash) (idV0 : Tx → Hash) (tx : Tx) : Hash :=
  if tx.version = 0 then idV0 tx else txIdV1 keyedHash tx.payload tx.restPreimage

/-- The accepted transactions. Ids do not collide: a preimage of an accepted
transaction's id is that transaction's serialization. -/
structure Ledger (keyedHash : KeyedHash) where
  idV0 : Tx → Hash
  accepted : Tx → Prop
  fits : ∀ tx, accepted tx → TxFits tx
  unique : ∀ tx, accepted tx → ∀ digest rest,
    txIdV1FromDigest keyedHash digest rest = txId keyedHash idV0 tx →
      tx.version ≠ 0 ∧ rest = tx.restPreimage

namespace Ledger

variable {keyedHash : KeyedHash} (L : Ledger keyedHash)

/-- The input spends this output of this transaction. -/
structure Spends (i : TxInput) (tx : Tx) (o : TxOutput) : Prop where
  accepted : L.accepted tx
  id : i.prev.txId = txId keyedHash L.idV0 tx
  output : tx.outputs[i.prev.index.toNat]? = some o

structure Valid (tx : Tx) : Prop where
  fits : TxFits tx
  spends : ∀ i ∈ tx.inputs, ∃ prev o, L.Spends i prev o

variable {L}

/-- A witness for the outpoint is the spent transaction, and parses to the spent output. -/
theorem Spends.of_witness {i : TxInput} {tx : Tx} {o : TxOutput} (h : L.Spends i tx o) {digest : Hash}
    {rest : Bytes} {out : OutputData} (hid : txIdV1FromDigest keyedHash digest rest = i.prev.txId)
    (hout : parseOutputAtIndexV1 rest i.prev.index = .ok out) : tx.version = 1 ∧ out = .ofOutput o := by
  have ⟨_, hrest⟩ := L.unique tx h.accepted digest rest (hid.trans h.id)
  subst hrest
  have hv := version_of_parseOutput hout
  rw [parseOutputAtIndexV1_of_output (L.fits tx h.accepted) hv h.output] at hout
  exact ⟨hv, (Except.ok.inj hout).symm⟩

/-- Every spent version 1 transaction has a witness. -/
theorem Spends.witness {i : TxInput} {tx : Tx} {o : TxOutput} (h : L.Spends i tx o) (hv : tx.version = 1) :
    txIdV1FromDigest keyedHash (keyedHash KEY_PAYLOAD_DIGEST tx.payload) tx.restPreimage =
        i.prev.txId ∧
      parseOutputAtIndexV1 tx.restPreimage i.prev.index = .ok (.ofOutput o) := by
  refine ⟨?_, parseOutputAtIndexV1_of_output (L.fits tx h.accepted) hv h.output⟩
  rw [h.id, txId, if_neg (by rw [hv]; decide)]
  rfl

end Ledger

/-- A recovered key is the key an input's output pays exactly when the outputs
with its script that the input can spend have script version 0. -/
theorem witness_authority_iff (P : Primitives) (L : Ledger P.keyedHash) {tx : Tx} (htx : L.Valid tx)
    (inputIdx : UInt8) :
    (∀ rest digest pubkey,
        recoverPrevTxV1P2pkPubkey P tx.restPreimage inputIdx rest digest = .ok (some pubkey) →
          ∃ i prev o, tx.inputs[inputIdx.toNat]? = some i ∧ L.Spends i prev o ∧
            Pays (.ofOutput o) pubkey) ↔
      ∀ i prev o pubkey, tx.inputs[inputIdx.toNat]? = some i → L.Spends i prev o →
        prev.version = 1 → o.spk = p2pkScript pubkey → o.spkVersion = 0 := by
  have hidx : (UInt32.ofNat inputIdx.toNat).toNat = inputIdx.toNat := by
    have := inputIdx.toNat_lt
    exact UInt32.toNat_ofNat_of_lt' (by rw [UInt32.size]; omega)
  constructor
  · intro h i prev o pubkey hi hspends hv hspk
    have ⟨hid, hout⟩ := hspends.witness hv
    have hrec := recoverPrevTxV1P2pkPubkey_eq_some.mpr ⟨_, _, _,
      (parseInputOutpointAt_iff htx.fits).mpr ⟨i, by rw [hidx]; exact hi, rfl⟩, hid, hout, hspk⟩
    have ⟨i', prev', o', hi', hspends', hpays⟩ := h _ _ _ hrec
    rw [hi] at hi'
    cases hi'
    have ⟨_, heq⟩ := hspends'.of_witness hid hout
    rw [← heq] at hpays
    exact hpays.1
  · intro h rest digest pubkey hrec
    have ⟨prevTxId, outputIdx, out, hparse, hid, hout, hspk⟩ :=
      recoverPrevTxV1P2pkPubkey_eq_some.mp hrec
    have ⟨i, hi, hpair⟩ := (parseInputOutpointAt_iff htx.fits).mp hparse
    cases hpair
    rw [hidx] at hi
    have ⟨prev, o, hspends⟩ := htx.spends i (List.mem_of_getElem? hi)
    have ⟨hv, heq⟩ := hspends.of_witness hid hout
    subst heq
    exact ⟨i, prev, o, hi, hspends, h i prev o pubkey hi hspends hv hspk, hspk⟩

namespace Sample

def oneHash : Hash := Arr.fill 1

/-- A transaction whose output has the script of the zero key under the given
script version, and one that spends it. -/
def fundingTx (spkVersion : UInt16) : Tx :=
  { version := 1, inputs := [⟨⟨zeroHash, 0⟩, [], 0⟩],
    outputs := [⟨1000, spkVersion, p2pkScript zeroHash, none⟩], lockTime := 0,
    subnetworkId := Arr.fill 0, gas := 0, payload := [] }

def spendingTx : Tx := { fundingTx 0 with inputs := [⟨⟨oneHash, 0⟩, [], 0⟩] }

/-- The id of the funding transaction is `oneHash` and of every other zero. -/
def fundingHash (spkVersion : UInt16) : KeyedHash := fun key msg =>
  if key = KEY_TRANSACTION_V1_ID then
    if h : (msg.drop 32).length = 32 then ⟨msg.drop 32, h⟩ else zeroHash
  else if msg = (fundingTx spkVersion).restPreimage then oneHash
  else zeroHash

def fundingPrimitives (spkVersion : UInt16) : Primitives :=
  { sha256 := fun _ => zeroHash, keyedHash := fundingHash spkVersion, blake2b := fun _ => zeroHash,
    verifySchnorr := fun _ _ _ => false }

theorem txIdV1FromDigest_fundingHash (spkVersion : UInt16) (digest : Hash) (rest : Bytes) :
    txIdV1FromDigest (fundingHash spkVersion) digest rest =
      if rest = (fundingTx spkVersion).restPreimage then oneHash else zeroHash := by
  have hrest : fundingHash spkVersion KEY_TRANSACTION_REST rest =
      if rest = (fundingTx spkVersion).restPreimage then oneHash else zeroHash :=
    if_neg (by decide)
  rw [txIdV1FromDigest, hrest]
  have hdrop : ∀ h : Hash, (digest.val ++ h.val).drop 32 = h.val := by
    intro h
    exact List.drop_left' digest.length_val
  rw [fundingHash, if_pos rfl]
  simp only [hdrop, Arr.length_val, dif_pos]

theorem fits_fundingTx (spkVersion : UInt16) : TxFits (fundingTx spkVersion) where
  inputs := show 1 < 2 ^ 64 by decide
  outputs := show 1 < 2 ^ 64 by decide
  scripts := List.forall_mem_singleton.mpr (show (p2pkScript zeroHash).length < 2 ^ 32 by decide)

theorem txId_fundingTx (spkVersion : UInt16) (idV0 : Tx → Hash) :
    txId (fundingHash spkVersion) idV0 (fundingTx spkVersion) = oneHash := by
  have hv : (fundingTx spkVersion).version ≠ 0 := show (1 : UInt16) ≠ 0 by decide
  have hid := txIdV1FromDigest_fundingHash spkVersion
    (fundingHash spkVersion KEY_PAYLOAD_DIGEST []) (fundingTx spkVersion).restPreimage
  rw [if_pos rfl] at hid
  rw [txId, if_neg hv]
  exact hid

def fundingLedger (spkVersion : UInt16) : Ledger (fundingHash spkVersion) where
  idV0 := fun _ => zeroHash
  accepted := fun tx => tx = fundingTx spkVersion
  fits := fun tx h => h ▸ fits_fundingTx spkVersion
  unique := by
    intro tx h digest rest hid
    subst h
    refine ⟨show (1 : UInt16) ≠ 0 by decide, ?_⟩
    rw [txIdV1FromDigest_fundingHash, txId_fundingTx] at hid
    split at hid
    · next h => exact h
    · exact absurd hid (by decide)

theorem spends_fundingTx (spkVersion : UInt16) :
    (fundingLedger spkVersion).Spends ⟨⟨oneHash, 0⟩, [], 0⟩ (fundingTx spkVersion)
      ⟨1000, spkVersion, p2pkScript zeroHash, none⟩ where
  accepted := rfl
  id := (txId_fundingTx spkVersion _).symm
  output := rfl

theorem valid_spendingTx (spkVersion : UInt16) : (fundingLedger spkVersion).Valid spendingTx where
  fits := ⟨by decide, by decide, List.forall_mem_singleton.mpr (by decide)⟩
  spends := List.forall_mem_singleton.mpr ⟨_, _, spends_fundingTx spkVersion⟩

/-- With script version 0 the first input speaks for the key it is paid to. -/
theorem spendingTx_authority :
    recoverPrevTxV1P2pkPubkey (fundingPrimitives 0) spendingTx.restPreimage 0
        (fundingTx 0).restPreimage zeroHash = .ok (some zeroHash) ∧
      ∃ i prev o, spendingTx.inputs[0]? = some i ∧ (fundingLedger 0).Spends i prev o ∧
        Pays (.ofOutput o) zeroHash := by
  have hrecover : recoverPrevTxV1P2pkPubkey (fundingPrimitives 0) spendingTx.restPreimage 0
      (fundingTx 0).restPreimage zeroHash = .ok (some zeroHash) := by
    decide +kernel
  refine ⟨hrecover, (witness_authority_iff (fundingPrimitives 0) (fundingLedger 0)
    (valid_spendingTx 0) 0).mpr ?_ _ _ _ hrecover⟩
  intro i prev o pubkey hi hspends _ _
  cases hi
  have haccepted : prev = fundingTx 0 := hspends.accepted
  have hout := hspends.output
  rw [haccepted] at hout
  cases hout
  rfl

/-- Under script version 1 the output pays nobody, and the key is recovered. -/
theorem unknownVersion_authority :
    recoverPrevTxV1P2pkPubkey (fundingPrimitives 1) spendingTx.restPreimage 0
        (fundingTx 1).restPreimage zeroHash = .ok (some zeroHash) ∧
      (fundingLedger 1).Valid spendingTx ∧
        ∀ i prev o, spendingTx.inputs[0]? = some i → (fundingLedger 1).Spends i prev o →
          ¬ Pays (.ofOutput o) zeroHash := by
  refine ⟨by decide +kernel, valid_spendingTx 1, ?_⟩
  intro i prev o hi hspends hpays
  cases hi
  have haccepted : prev = fundingTx 1 := hspends.accepted
  have hout := hspends.output
  rw [haccepted] at hout
  cases hout
  exact absurd hpays.1 (by decide)

end Sample

end Vprogs.Runtime
