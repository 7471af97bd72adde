import Vprogs.Runtime.Witness

/-!
The transaction parsers against the serialization. On a serialized transaction they
return the inputs and outputs it has and report every other index. On any bytes they
end: a record takes a minimum of bytes, so the loops stop after as many as there is room
for, whatever counts and lengths the bytes announce.
-/
namespace Vprogs.Runtime

open Abi L1

/-! ### Serialized transactions -/

theorem length_restBytes (i : TxInput) : i.restBytes.length = 52 := by
  simp [TxInput.restBytes]

theorem length_outputBytes (o : TxOutput) : o.spk.length + 19 ≤ o.bytes.length := by
  cases hc : o.covenant with
  | none => simp +arith [TxOutput.bytes, TxOutput.covenantBytes, hc]
  | some b => simp +arith [TxOutput.bytes, TxOutput.covenantBytes, hc]

theorem length_le_flatMap {α : Type} {f : α → Bytes} (hf : ∀ a, 0 < (f a).length) (xs : List α) :
    xs.length ≤ (xs.flatMap f).length := by
  induction xs with
  | nil => exact Nat.le_refl 0
  | cons x xs ih =>
    have hx := hf x
    rw [List.flatMap_cons, List.length_append, List.length_cons]
    omega

theorem length_le_flatMap_of_mem {α : Type} {f : α → Bytes} {x : α} {xs : List α} (hx : x ∈ xs) :
    (f x).length ≤ (xs.flatMap f).length := by
  have ⟨before, after, hsplit⟩ := List.append_of_mem hx
  rw [hsplit, List.flatMap_append, List.flatMap_cons, List.length_append, List.length_append]
  omega

/-- Bytes that the guest can address keep every count and length within its width. -/
theorem txFits_of_length {tx : Tx} (h : tx.restPreimage.length < 2 ^ 32) : TxFits tx := by
  have hinputs : tx.inputs.length ≤ (tx.inputs.flatMap TxInput.restBytes).length :=
    length_le_flatMap (fun i => by rw [length_restBytes]; decide) _
  have houtputs : tx.outputs.length ≤ (tx.outputs.flatMap TxOutput.bytes).length :=
    length_le_flatMap (fun o => Nat.lt_of_lt_of_le (by omega) (length_outputBytes o)) _
  have hlen : (tx.inputs.flatMap TxInput.restBytes).length +
      (tx.outputs.flatMap TxOutput.bytes).length ≤ tx.restPreimage.length := by
    simp only [Tx.restPreimage, List.length_append]
    omega
  refine ⟨by omega, by omega, fun o ho => ?_⟩
  have hbytes := length_le_flatMap_of_mem (f := TxOutput.bytes) ho
  have hspk := length_outputBytes o
  omega

theorem parse_eq_error {α : Type} {r : Reader Error α} {buf : Bytes} {e : Error}
    (h : r.run buf = .error e) :
    (do let (x, _) ← r.run buf; pure x : Result α) = .error e := by
  rw [h]
  rfl

theorem parseInputOutpointAt_of_none {tx : Tx} (h : TxFits tx) {idx : UInt32}
    (hi : tx.inputs[idx.toNat]? = none) :
    parseInputOutpointAt tx.restPreimage idx = .error (.decode "input_idx out of range") := by
  refine parse_eq_error ?_
  rw [readInputOutpointAt, Tx.restPreimage, Reader.run_bind_of_ok (run_skip _ (length_leBytes _ _)),
    Reader.run_bind_of_ok (run_leU64_count h.inputs), UInt64.toNat_ofNat_of_lt' h.inputs,
    if_pos (List.getElem?_eq_none_iff.mp hi)]
  rfl

theorem parseOutputAtIndexV1_of_none {tx : Tx} (h : TxFits tx) (hv : tx.version = 1) {idx : UInt32}
    (ho : tx.outputs[idx.toNat]? = none) :
    parseOutputAtIndexV1 tx.restPreimage idx = .error (.decode "output_index out of range") := by
  have hskip := run_repeatSkip tx.inputs
  rw [← UInt64.toNat_ofNat_of_lt' h.inputs] at hskip
  refine parse_eq_error ?_
  rw [readOutputAtIndexV1, Tx.restPreimage, Reader.run_bind_of_ok (Reader.run_leU16.mpr rfl),
    if_neg (not_not.mpr hv), Reader.run_bind_of_ok (run_leU64_count h.inputs), Reader.run_bind_of_ok (hskip _),
    Reader.run_bind_of_ok (run_leU64_count h.outputs), UInt64.toNat_ofNat_of_lt' h.outputs,
    if_pos (List.getElem?_eq_none_iff.mp ho)]
  rfl

/-! ### Arbitrary bytes -/

theorem takes_skip (len : Nat) {field : String} : Reader.Takes len (skip len field) :=
  .bind (.bytes len) fun _ => .pure _

theorem takes_skipInput : Reader.Takes 52 skipInput := by
  refine .bind (n := 20) (takes_skip 32) fun _ => .bind (n := 16) (takes_skip 4) fun _ =>
    .bind (n := 8) .leU64 fun sigScriptLen => ?_
  exact .weaken (.bind (takes_skip _) fun _ => takes_skip 8) (Nat.le_add_left _ _)

theorem takes_readOutput : Reader.Takes 19 readOutput := by
  refine .bind (n := 11) .leU64 fun value => .bind (n := 9) .leU16 fun spkVersion =>
    .bind (n := 1) .leU64 fun spkLen => ?_
  refine .weaken (.bind (n := 1) (.bytes _) fun spk => .bind (n := 0) .byte fun hasCovenant => ?_)
    (Nat.le_add_left _ _)
  split
  · exact .weaken (.bind (takes_skip 2) fun _ => .bind (takes_skip 32) fun _ => .pure _)
      (Nat.zero_le _)
  · exact .pure _

theorem div_lt_of_takes {left size len n : Nat} (hsize : 0 < size) (htakes : left + size ≤ len)
    (h : len / size < n + 1) : left / size < n := by
  have hroom : left / size + 1 ≤ len / size := by
    rw [← Nat.add_div_right _ hsize]
    exact Nat.div_le_div_right htakes
  omega

/-- Counts past what the bytes have room for end the loop over the inputs alike. -/
theorem run_repeatSkip_enough {m n : Nat} {buf : Bytes} (hm : buf.length / 52 < m)
    (hn : buf.length / 52 < n) : (repeatSkip skipInput m).run buf = (repeatSkip skipInput n).run buf := by
  induction m generalizing n buf with
  | zero => exact absurd hm (Nat.not_lt_zero _)
  | succ m ih =>
    cases n with
    | zero => exact absurd hn (Nat.not_lt_zero _)
    | succ n =>
      rw [repeatSkip, repeatSkip, Reader.run_bind, Reader.run_bind]
      cases hrun : skipInput.run buf with
      | error e => rfl
      | ok r =>
        have htakes := takes_skipInput _ _ _ hrun
        exact ih (div_lt_of_takes (by decide) htakes hm) (div_lt_of_takes (by decide) htakes hn)

theorem run_readOutputAt_enough {m n : Nat} {buf : Bytes} (hm : buf.length / 19 < m)
    (hn : buf.length / 19 < n) : (readOutputAt m).run buf = (readOutputAt n).run buf := by
  induction m generalizing n buf with
  | zero => exact absurd hm (Nat.not_lt_zero _)
  | succ m ih =>
    cases n with
    | zero => exact absurd hn (Nat.not_lt_zero _)
    | succ n =>
      rw [readOutputAt, readOutputAt, Reader.run_bind, Reader.run_bind]
      match hrun : readOutput.run buf with
      | .error e => rfl
      | .ok (o, rest) =>
        have htakes := takes_readOutput _ _ _ hrun
        exact ih (div_lt_of_takes (by decide) htakes hm) (div_lt_of_takes (by decide) htakes hn)

theorem of_min {α : Type} {f : Nat → α} {bound : Nat}
    (h : ∀ {m n}, bound < m → bound < n → f m = f n) (n : Nat) : f n = f (min n (bound + 1)) := by
  rcases Nat.le_total n (bound + 1) with hle | hle
  · rw [Nat.min_eq_left hle]
  · rw [Nat.min_eq_right hle]
    exact h hle (Nat.lt_succ_self bound)

/-- The parsers invert the serialization of a version 1 transaction at every index, and on
arbitrary bytes their loops end within the records the bytes have room for. The guest
holds the serialization in memory, which its 32-bit addresses bound. -/
theorem txParsers_invert_serialization :
    (∀ tx : Tx, tx.version = 1 → tx.restPreimage.length < 2 ^ 32 → ∀ idx : UInt32,
      (parseInputOutpointAt tx.restPreimage idx =
        match tx.inputs[idx.toNat]? with
        | some i => .ok (i.prev.txId, i.prev.index)
        | none => .error (.decode "input_idx out of range")) ∧
      parseOutputAtIndexV1 tx.restPreimage idx =
        match tx.outputs[idx.toNat]? with
        | some o => .ok ⟨o.value, o.spkVersion, o.spk⟩
        | none => .error (.decode "output_index out of range")) ∧
    ∀ (buf : Bytes) (n : Nat),
      (repeatSkip skipInput n).run buf =
        (repeatSkip skipInput (min n (buf.length / 52 + 1))).run buf ∧
      (readOutputAt n).run buf = (readOutputAt (min n (buf.length / 19 + 1))).run buf := by
  refine ⟨fun tx hv hlen idx => ?_, fun buf n =>
    ⟨of_min (f := fun n => (repeatSkip skipInput n).run buf) run_repeatSkip_enough n,
      of_min (f := fun n => (readOutputAt n).run buf) run_readOutputAt_enough n⟩⟩
  have hfits := txFits_of_length hlen
  constructor
  · match hi : tx.inputs[idx.toNat]? with
    | some i => exact (parseInputOutpointAt_iff hfits).mpr ⟨i, hi, rfl⟩
    | none => exact parseInputOutpointAt_of_none hfits hi
  · match ho : tx.outputs[idx.toNat]? with
    | some o => exact parseOutputAtIndexV1_of_output hfits hv ho
    | none => exact parseOutputAtIndexV1_of_none hfits hv ho

namespace Sample

/-- Two inputs, a plain output of script version 7 and a covenant output without script. -/
def twoByTwoTx : Tx :=
  { version := 1
    inputs := [⟨⟨zeroHash, 4⟩, [9, 9], 0⟩, ⟨⟨oneHash, 5⟩, [], 1⟩]
    outputs := [⟨600, 7, [0x51, 0x52], none⟩, ⟨700, 0, [], some ⟨1, oneHash⟩⟩]
    lockTime := 0
    subnetworkId := Arr.fill 0
    gas := 0
    payload := [] }

theorem txParsers_twoByTwoTx :
    parseInputOutpointAt twoByTwoTx.restPreimage 1 = .ok (oneHash, 5) ∧
      parseOutputAtIndexV1 twoByTwoTx.restPreimage 0 = .ok ⟨600, 7, [0x51, 0x52]⟩ ∧
      parseOutputAtIndexV1 twoByTwoTx.restPreimage 2 =
        .error (.decode "output_index out of range") :=
  have parsed := txParsers_invert_serialization.1 twoByTwoTx rfl (by decide +kernel)
  ⟨(parsed 1).1, (parsed 0).2, (parsed 2).2⟩

end Sample

end Vprogs.Runtime
