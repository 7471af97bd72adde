import Vprogs.Runtime.Actions

/-!
What the runtime's decoders return and report on arbitrary bytes: resource
indices in range, and error messages short enough for the journal, which stores
an error's message behind a 32-bit length.
-/
namespace Vprogs.Runtime

open Abi

/-- Every error of the reader fits the journal. -/
abbrev ShortErrs {α : Type} (r : Reader Error α) : Prop := Reader.Errs Error.Encodable r

/-- Every message of the check fits the journal. -/
def ShortMsg {α : Type} (x : Except String α) : Prop :=
  ∀ msg, x = .error msg → Error.Encodable (.decode msg)

theorem ShortMsg.ok {α : Type} (a : α) : ShortMsg (.ok a : Except String α) := by
  intro msg h
  cases h

theorem ShortMsg.error {α : Type} {msg : String} (h : Error.Encodable (.decode msg)) :
    ShortMsg (.error msg : Except String α) := by
  intro msg' h'
  cases h'
  exact h

/-! ### Error messages of locks and views -/

theorem shortMsg_validateMultisigFields (threshold nPubkeys : UInt8) (pubkeys : Bytes) :
    ShortMsg (validateMultisigFields threshold nPubkeys pubkeys) := by
  unfold validateMultisigFields
  split
  · exact .error (by decide)
  · split
    · exact .error (by decide)
    · split
      · exact .error (by decide)
      · exact .ok ()

theorem shortMsg_validateLockBody (tag : UInt8) (body : Bytes) : ShortMsg (validateLockBody tag body) := by
  unfold validateLockBody
  split
  · split
    · exact .error (by decide)
    · exact .ok ()
  · split
    · split
      · exact shortMsg_validateMultisigFields _ _ _
      · exact .error (by decide)
    · split
      · split
        · exact .error (by decide)
        · exact .ok ()
      · exact .error (by decide)

theorem shortMsg_fromBytes {what : String} (hwhat : what.utf8ByteSize < 2 ^ 16) (kind : UInt8)
    (bytes : Bytes) : ShortMsg (Raw.fromBytes what kind bytes) := by
  have hmsg : ∀ after : String, after.utf8ByteSize < 2 ^ 16 →
      Error.Encodable (.decode (toString "" ++ toString what ++ toString after)) :=
    fun after => Error.encodable_around hwhat (by decide)
  unfold Raw.fromBytes
  split
  · exact .error (hmsg _ (by decide))
  · split
    · exact .error (hmsg _ (by decide))
    · split
      · exact .error (hmsg _ (by decide))
      · split
        · exact .ok _
        · next msg hmsg => exact .error (shortMsg_validateLockBody _ _ msg hmsg)

theorem shortMsg_created (state : Lifecycle) : ShortMsg state.created := by
  cases state with
  | new => exact .ok _
  | live => exact .error (by decide)
  | deleted => exact .error (by decide)

theorem shortMsg_checkedAdd (a b : UInt64) {msg : String} (h : Error.Encodable (.decode msg)) :
    ShortMsg (checkedAdd a b msg) := by
  unfold checkedAdd
  split
  · exact .ok _
  · exact .error h

theorem shortMsg_checkedSub (a b : UInt64) {msg : String} (h : Error.Encodable (.decode msg)) :
    ShortMsg (checkedSub a b msg) := by
  unfold checkedSub
  split
  · exact .ok _
  · exact .error h

/-! ### Error messages of the instruction decoder -/

theorem shortErrs_lock : ShortErrs LockEnum.decode := by
  refine .bind (.byte (by decide)) fun tag => ?_
  split
  · exact .bind (.array (by decide)) fun _ => .pure _
  · split
    · refine .bind (.byte (by decide)) fun threshold => ?_
      refine .bind (.byte (by decide)) fun nPubkeys => ?_
      refine .bind (.bytes (by decide)) fun pubkeys => ?_
      split
      · exact .pure _
      · next msg hmsg => exact .failDecode (shortMsg_validateMultisigFields _ _ _ msg hmsg)
    · split
      · exact .pure _
      · exact .failDecode (by decide)

theorem shortErrs_decodeWitness {what : String} (hwhat : what.utf8ByteSize < 2 ^ 16)
    (mk : UInt8 → UInt32 → UInt32 → UInt32 → SignerEnum) : ShortErrs (decodeWitness what mk) := by
  have hfield : ∀ after : String, after.utf8ByteSize < 2 ^ 16 →
      Error.Encodable (.decode (toString "" ++ toString what ++ toString after)) :=
    fun after => Error.encodable_around hwhat (by decide)
  refine .bind (.byte (hfield _ (by decide))) fun inputIdx => ?_
  refine .bind (.leU32 (hfield _ (by decide))) fun restPreimageOffset => ?_
  refine .bind (.leU32 (hfield _ (by decide))) fun restPreimageLen => ?_
  exact .bind (.leU32 (hfield _ (by decide))) fun payloadDigestOffset => .pure _

theorem shortErrs_decodeSigner : ShortErrs decodeSigner := by
  refine .bind (.byte (by decide)) fun resourceIdx => ?_
  refine .bind (.byte (by decide)) fun kind => ?_
  refine .bind ?_ fun body => .pure _
  unfold decodeSignerBody
  split
  · exact .bind (.leU32 (by decide)) fun _ => .pure _
  · split
    · exact shortErrs_decodeWitness (by decide) _
    · split
      · refine .bind (.byte (by decide)) fun pubkeyIdx => ?_
        exact .bind (.leU32 (by decide)) fun _ => .pure _
      · split
        · exact shortErrs_decodeWitness (by decide) _
        · split
          · exact .bind (.leU32 (by decide)) fun _ => .pure _
          · exact .failDecode (by decide)

theorem shortErrs_decodeSigners (n : Nat) (prev : Option UInt8) (count : Nat) :
    ShortErrs (decodeSigners n prev count) := by
  induction count generalizing prev with
  | zero => exact .pure _
  | succ count ih =>
    refine .bind shortErrs_decodeSigner fun entry => ?_
    split
    · exact .failDecode (by decide)
    · split
      · exact .failDecode (by decide)
      · exact .bind (ih _) fun rest => .pure _

theorem shortErrs_readResourceIdx {field : String} (h : Error.Encodable (.decode field)) (n : Nat) :
    ShortErrs (readResourceIdx field n) := by
  refine .bind (.byte h) fun idx => ?_
  split
  · exact .failDecode h
  · exact .pure _

theorem shortErrs_decodeConfigAction {what : String} (hwhat : what.utf8ByteSize < 2 ^ 16) (n : Nat)
    (mk : UInt8 → UInt64 → Hash → LockEnum → ActionBody) : ShortErrs (decodeConfigAction what n mk) := by
  have hfield : ∀ after : String, after.utf8ByteSize < 2 ^ 16 →
      Error.Encodable (.decode (toString "action." ++ toString what ++ toString after)) :=
    fun after => Error.encodable_around hwhat (by decide)
  refine .bind (shortErrs_readResourceIdx (hfield _ (by decide)) n) fun updaterIdx => ?_
  refine .bind (.leU64 (hfield _ (by decide))) fun newMinWithdrawalAmount => ?_
  refine .bind (.array (hfield _ (by decide))) fun newCovenantId => ?_
  exact .bind shortErrs_lock fun newLock => .pure _

theorem shortErrs_decodeDestInit : ShortErrs decodeDestInit := by
  refine .bind (.byte (by decide)) fun flag => ?_
  split
  · exact .pure _
  · split
    · exact .bind shortErrs_lock fun lock => .pure _
    · exact .failDecode (by decide)

theorem shortErrs_decodeDest : ShortErrs decodeDest := by
  intro buf e h
  rw [run_decodeDest] at h
  split at h
  · cases h
  · cases h
    decide

theorem shortErrs_decodeAction (n : Nat) : ShortErrs (decodeAction n) := by
  refine .bind (.byte (by decide)) fun actionTag => ?_
  split
  · exact shortErrs_decodeConfigAction (by decide) n _
  · split
    · exact shortErrs_decodeConfigAction (by decide) n _
    · split
      · refine .bind (shortErrs_readResourceIdx (by decide) n) fun sourceIdx => ?_
        refine .bind (shortErrs_readResourceIdx (by decide) n) fun destIdx => ?_
        refine .bind (.leU64 (by decide)) fun amount => ?_
        exact .bind shortErrs_decodeDestInit fun destInit => .pure _
      · split
        · refine .bind (shortErrs_readResourceIdx (by decide) n) fun userIdx => ?_
          exact .bind shortErrs_lock fun newLock => .pure _
        · split
          · refine .bind (shortErrs_readResourceIdx (by decide) n) fun userIdx => ?_
            refine .bind (.leU32 (by decide)) fun outputIdx => ?_
            exact .bind shortErrs_lock fun initialLock => .pure _
          · split
            · refine .bind (shortErrs_readResourceIdx (by decide) n) fun userIdx => ?_
              refine .bind (.leU64 (by decide)) fun amount => ?_
              exact .bind shortErrs_decodeDest fun dest => .pure _
            · exact .failDecode (by decide)

theorem shortErrs_decodeActions (n count : Nat) : ShortErrs (decodeActions n count) := by
  induction count with
  | zero => exact .pure _
  | succ count ih =>
    refine .bind (shortErrs_decodeAction n) fun action => ?_
    exact .bind ih fun rest => .pure _

theorem shortErrs_readIx (n : Nat) : ShortErrs (readIx n) := by
  refine .bind (.leU32 (by decide)) fun nSigners => ?_
  refine .bind (shortErrs_decodeSigners n none _) fun signers => ?_
  refine .bind (.leU32 (by decide)) fun nActions => ?_
  exact .bind (shortErrs_decodeActions n _) fun actions => .pure _

/-! ### Error messages of the transaction parsers -/

theorem shortErrs_skip {field : String} (h : Error.Encodable (.decode field)) (n : Nat) :
    ShortErrs (skip n field) :=
  .bind (.bytes h) fun _ => .pure _

theorem shortErrs_skipInput : ShortErrs skipInput := by
  refine .bind (shortErrs_skip (by decide) 32) fun _ => ?_
  refine .bind (shortErrs_skip (by decide) 4) fun _ => ?_
  refine .bind (.leU64 (by decide)) fun sigScriptLen => ?_
  refine .bind (shortErrs_skip (by decide) _) fun _ => ?_
  exact shortErrs_skip (by decide) 8

theorem shortErrs_repeatSkip {r : Reader Error Unit} (h : ShortErrs r) (n : Nat) :
    ShortErrs (repeatSkip r n) := by
  induction n with
  | zero => exact .pure _
  | succ n ih => exact .bind h fun _ => ih

theorem shortErrs_readInputOutpointAt (idx : UInt32) : ShortErrs (readInputOutpointAt idx) := by
  refine .bind (shortErrs_skip (by decide) 2) fun _ => ?_
  refine .bind (.leU64 (by decide)) fun nInputs => ?_
  split
  · exact .failDecode (by decide)
  · refine .bind (shortErrs_repeatSkip shortErrs_skipInput _) fun _ => ?_
    refine .bind (.array (by decide)) fun prevTxId => ?_
    exact .bind (.leU32 (by decide)) fun prevIndex => .pure _

theorem shortErrs_readOutput : ShortErrs readOutput := by
  refine .bind (.leU64 (by decide)) fun value => ?_
  refine .bind (.leU16 (by decide)) fun spkVersion => ?_
  refine .bind (.leU64 (by decide)) fun spkLen => ?_
  refine .bind (.bytes (by decide)) fun spk => ?_
  refine .bind (.byte (by decide)) fun hasCovenant => ?_
  split
  · refine .bind (shortErrs_skip (by decide) 2) fun _ => ?_
    exact .bind (shortErrs_skip (by decide) 32) fun _ => .pure _
  · exact .pure _

theorem shortErrs_readOutputAt (before : Nat) : ShortErrs (readOutputAt before) := by
  induction before with
  | zero => exact shortErrs_readOutput
  | succ before ih => exact .bind shortErrs_readOutput fun _ => ih

theorem shortErrs_readOutputAtIndexV1 (idx : UInt32) : ShortErrs (readOutputAtIndexV1 idx) := by
  refine .bind (.leU16 (by decide)) fun version => ?_
  split
  · exact .failDecode (by decide)
  · refine .bind (.leU64 (by decide)) fun nInputs => ?_
    refine .bind (shortErrs_repeatSkip shortErrs_skipInput _) fun _ => ?_
    refine .bind (.leU64 (by decide)) fun nOutputs => ?_
    split
    · exact .failDecode (by decide)
    · exact shortErrs_readOutputAt _

/-- Every error of the result fits the journal. -/
def ShortError {α : Type} (x : Result α) : Prop := ∀ e, x = .error e → e.Encodable

theorem ShortError.bind {α β : Type} {x : Result α} {f : α → Result β} (hx : ShortError x)
    (hf : ∀ a, ShortError (f a)) : ShortError (do let a ← x; f a) := by
  intro e he
  match x with
  | .ok a => exact hf a e he
  | .error e' =>
    cases he
    exact hx e rfl

theorem ShortError.ok {α : Type} (a : α) : ShortError (.ok a : Result α) := by
  intro e h
  cases h

theorem shortError_parseOutputAtIndexV1 (restPreimage : Bytes) (idx : UInt32) :
    ShortError (parseOutputAtIndexV1 restPreimage idx) :=
  .bind (shortErrs_readOutputAtIndexV1 idx restPreimage) fun _ => .ok _

theorem shortError_recoverPrevTxV1P2pkPubkey (P : Primitives) (current : Bytes) (inputIdx : UInt8)
    (witness : Bytes) (payloadDigest : Hash) :
    ShortError (recoverPrevTxV1P2pkPubkey P current inputIdx witness payloadDigest) := by
  refine .bind ?_ fun ⟨prevTxId, outputIndex⟩ => ?_
  · exact .bind (shortErrs_readInputOutpointAt _ current) fun _ => .ok _
  · dsimp only
    split
    · intro e he
      cases he
      decide
    · exact .bind (shortError_parseOutputAtIndexV1 _ _) fun _ => .ok _

theorem shortError_decodeIx (orig : Bytes) (n : Nat) : ShortError (decodeIx orig n) :=
  .bind (shortErrs_readIx n orig) fun _ => .ok _

/-! ### Resource indices -/

/-- The resources an action names exist. -/
def ActionBody.InRange (n : Nat) : ActionBody → Prop
  | .update idx _ _ _ | .init idx _ _ _ | .updateUserLock idx _ | .deposit idx _ _
  | .withdraw idx _ _ => idx.toNat < n
  | .transfer src dst _ _ => src.toNat < n ∧ dst.toNat < n

theorem readResourceIdx_lt {field : String} {n : Nat} {buf rest : Bytes} {idx : UInt8}
    (h : (readResourceIdx field n).run buf = .ok (idx, rest)) : idx.toNat < n := by
  have ⟨b, mid, _, hif⟩ := Reader.run_bind_eq_ok.mp h
  split at hif
  · cases hif
  · next hlt =>
    cases hif
    exact Nat.lt_of_not_le hlt

theorem decodeConfigAction_eq_ok {what : String} {n : Nat}
    {mk : UInt8 → UInt64 → Hash → LockEnum → ActionBody} {buf rest : Bytes} {action : ActionBody}
    (h : (decodeConfigAction what n mk).run buf = .ok (action, rest)) :
    ∃ idx min covenantId lock, idx.toNat < n ∧ action = mk idx min covenantId lock := by
  simp only [decodeConfigAction, Reader.run_bind_eq_ok] at h
  have ⟨idx, _, hidx, min, _, _, covenantId, _, _, lock, _, _, hmk⟩ := h
  cases hmk
  exact ⟨idx, min, covenantId, lock, readResourceIdx_lt hidx, rfl⟩

theorem decodeAction_inRange {n : Nat} {buf rest : Bytes} {action : ActionBody}
    (h : (decodeAction n).run buf = .ok (action, rest)) : action.InRange n := by
  have ⟨tag, mid, _, hbody⟩ := Reader.run_bind_eq_ok.mp h
  clear h
  split at hbody
  · have ⟨idx, _, _, _, hidx, hmk⟩ := decodeConfigAction_eq_ok hbody
    exact hmk ▸ hidx
  · split at hbody
    · have ⟨idx, _, _, _, hidx, hmk⟩ := decodeConfigAction_eq_ok hbody
      exact hmk ▸ hidx
    · split at hbody
      · simp only [Reader.run_bind_eq_ok] at hbody
        have ⟨src, _, hsrc, dst, _, hdst, _, _, _, _, _, _, hmk⟩ := hbody
        cases hmk
        exact ⟨readResourceIdx_lt hsrc, readResourceIdx_lt hdst⟩
      · split at hbody
        · simp only [Reader.run_bind_eq_ok] at hbody
          have ⟨idx, _, hidx, _, _, _, hmk⟩ := hbody
          cases hmk
          exact readResourceIdx_lt hidx
        · split at hbody
          · simp only [Reader.run_bind_eq_ok] at hbody
            have ⟨idx, _, hidx, _, _, _, _, _, _, hmk⟩ := hbody
            cases hmk
            exact readResourceIdx_lt hidx
          · split at hbody
            · simp only [Reader.run_bind_eq_ok] at hbody
              have ⟨idx, _, hidx, _, _, _, _, _, _, hmk⟩ := hbody
              cases hmk
              exact readResourceIdx_lt hidx
            · cases hbody

theorem decodeActions_inRange {n count : Nat} {buf rest : Bytes} {actions : List ActionBody}
    (h : (decodeActions n count).run buf = .ok (actions, rest)) : ∀ action ∈ actions, action.InRange n := by
  induction count generalizing buf actions with
  | zero =>
    cases h
    intro action hmem
    cases hmem
  | succ count ih =>
    simp only [decodeActions, Reader.run_bind_eq_ok] at h
    have ⟨action, _, haction, others, _, hothers, hcons⟩ := h
    cases hcons
    rw [List.forall_mem_cons]
    exact ⟨decodeAction_inRange haction, ih hothers⟩

/-! ### Exits are paid for in instruction bytes -/

/-- The exits the action emits. -/
def ActionBody.exits : ActionBody → List Exit
  | .withdraw _ amount dest => [⟨dest, amount⟩]
  | _ => []

def ActionBody.exitBytes (action : ActionBody) : Bytes := action.exits.flatMap Exit.encode

theorem confined_lock : Reader.Confined LockEnum.decode := by
  refine .bind .byte fun tag => ?_
  split
  · exact .bind (.array 32) fun _ => .pure _
  · split
    · refine .bind .byte fun threshold => ?_
      refine .bind .byte fun nPubkeys => ?_
      refine .bind (.bytes _) fun pubkeys => ?_
      split
      · exact .pure _
      · exact .fail _
    · split
      · exact .pure _
      · exact .fail _

theorem confined_readResourceIdx (field : String) (n : Nat) :
    Reader.Confined (readResourceIdx field n) := by
  refine .bind .byte fun idx => ?_
  split
  · exact .fail _
  · exact .pure _

theorem confined_decodeConfigAction (what : String) (n : Nat)
    (mk : UInt8 → UInt64 → Hash → LockEnum → ActionBody) :
    Reader.Confined (decodeConfigAction what n mk) := by
  refine .bind (confined_readResourceIdx _ n) fun updaterIdx => ?_
  refine .bind .leU64 fun newMinWithdrawalAmount => ?_
  refine .bind (.array 32) fun newCovenantId => ?_
  exact .bind confined_lock fun newLock => .pure _

theorem confined_decodeDestInit : Reader.Confined decodeDestInit := by
  refine .bind .byte fun flag => ?_
  split
  · exact .pure _
  · split
    · exact .bind confined_lock fun lock => .pure _
    · exact .fail _

theorem decodeDest_eq_ok {buf rest : Bytes} {dest : StandardSpk}
    (h : decodeDest.run buf = .ok (dest, rest)) : buf = dest.encode ++ rest := by
  rw [run_decodeDest] at h
  split at h
  · next found hfound =>
    cases h
    exact StandardSpk.encode_of_decode hfound
  · cases h

theorem decodeAction_exitBytes {n : Nat} {buf rest : Bytes} {action : ActionBody}
    (h : (decodeAction n).run buf = .ok (action, rest)) :
    action.exitBytes.length + rest.length ≤ buf.length := by
  obtain ⟨tag, mid, htag, hbody⟩ := Reader.run_bind_eq_ok.mp h
  have hmid : mid.length < buf.length := by
    rw [Reader.run_byte.mp htag]
    exact Nat.lt_succ_self _
  -- Only a withdrawal adds an exit; for the rest it is enough that they consume.
  have hnone : rest <:+ mid → action.exitBytes = [] →
      action.exitBytes.length + rest.length ≤ buf.length := by
    intro hsuf hnil
    have := hsuf.length_le
    rw [hnil, List.length_nil]
    omega
  clear h htag
  split at hbody
  · obtain ⟨_, _, _, _, _, hmk⟩ := decodeConfigAction_eq_ok hbody
    exact hnone ((confined_decodeConfigAction _ _ _).suffix hbody) (hmk ▸ rfl)
  · split at hbody
    · obtain ⟨_, _, _, _, _, hmk⟩ := decodeConfigAction_eq_ok hbody
      exact hnone ((confined_decodeConfigAction _ _ _).suffix hbody) (hmk ▸ rfl)
    · split at hbody
      · have hsuf := (Reader.Confined.bind (confined_readResourceIdx _ n) (fun _ =>
          .bind (confined_readResourceIdx _ n) fun _ => .bind .leU64 fun _ =>
            .bind confined_decodeDestInit fun _ => .pure _)).suffix hbody
        simp only [Reader.run_bind_eq_ok] at hbody
        obtain ⟨_, _, _, _, _, _, _, _, _, _, _, _, hmk⟩ := hbody
        cases hmk
        exact hnone hsuf rfl
      · split at hbody
        · have hsuf := (Reader.Confined.bind (confined_readResourceIdx _ n) (fun _ =>
            .bind confined_lock fun _ => .pure _)).suffix hbody
          simp only [Reader.run_bind_eq_ok] at hbody
          obtain ⟨_, _, _, _, _, _, hmk⟩ := hbody
          cases hmk
          exact hnone hsuf rfl
        · split at hbody
          · have hsuf := (Reader.Confined.bind (confined_readResourceIdx _ n) (fun _ =>
              .bind .leU32 fun _ => .bind confined_lock fun _ => .pure _)).suffix hbody
            simp only [Reader.run_bind_eq_ok] at hbody
            obtain ⟨_, _, _, _, _, _, _, _, _, hmk⟩ := hbody
            cases hmk
            exact hnone hsuf rfl
          · split at hbody
            · simp only [Reader.run_bind_eq_ok, Reader.run_leU64] at hbody
              obtain ⟨_, mid', hidx, amount, _, hamount, dest, _, hdest, hmk⟩ := hbody
              cases hmk
              have hsuf := ((confined_readResourceIdx _ n).suffix hidx).length_le
              rw [hamount, decodeDest_eq_ok hdest] at hsuf
              simp only [List.length_append, length_leBytes] at hsuf
              simp only [ActionBody.exitBytes, ActionBody.exits, List.flatMap_singleton, Exit.encode,
                List.length_append, length_leBytes]
              omega
            · cases hbody

theorem decodeActions_exitBytes {n count : Nat} {buf rest : Bytes} {actions : List ActionBody}
    (h : (decodeActions n count).run buf = .ok (actions, rest)) :
    (actions.flatMap ActionBody.exitBytes).length + rest.length ≤ buf.length := by
  induction count generalizing buf actions with
  | zero =>
    cases h
    simp
  | succ count ih =>
    simp only [decodeActions, Reader.run_bind_eq_ok] at h
    have ⟨action, _, haction, others, _, hothers, hcons⟩ := h
    cases hcons
    have hhead := decodeAction_exitBytes haction
    have htail := ih hothers
    rw [List.flatMap_cons, List.length_append]
    omega

/-! ### The whole instruction stream -/

theorem confined_decodeWitness (what : String) (mk : UInt8 → UInt32 → UInt32 → UInt32 → SignerEnum) :
    Reader.Confined (decodeWitness what mk) :=
  .bind .byte fun _ => .bind .leU32 fun _ => .bind .leU32 fun _ => .bind .leU32 fun _ => .pure _

theorem confined_decodeSigner : Reader.Confined decodeSigner := by
  refine .bind .byte fun resourceIdx => ?_
  refine .bind .byte fun kind => ?_
  refine .bind ?_ fun body => .pure _
  unfold decodeSignerBody
  split
  · exact .bind .leU32 fun _ => .pure _
  · split
    · exact confined_decodeWitness _ _
    · split
      · exact .bind .byte fun _ => .bind .leU32 fun _ => .pure _
      · split
        · exact confined_decodeWitness _ _
        · split
          · exact .bind .leU32 fun _ => .pure _
          · exact .fail _

theorem confined_decodeSigners (n : Nat) (prev : Option UInt8) (count : Nat) :
    Reader.Confined (decodeSigners n prev count) := by
  induction count generalizing prev with
  | zero => exact .pure _
  | succ count ih =>
    refine .bind confined_decodeSigner fun entry => ?_
    split
    · exact .fail _
    · split
      · exact .fail _
      · exact .bind (ih _) fun rest => .pure _

theorem decodeIx_eq_ok {orig : Bytes} {n : Nat} {ix : DecodedIx} :
    decodeIx orig n = .ok ix ↔ ∃ rest, (readIx n).run orig = .ok ((ix.signers, ix.actions), rest) ∧
      ix.endOfActionsInIx = orig.length - rest.length := by
  simp only [decodeIx]
  cases hrun : (readIx n).run orig with
  | error e => exact ⟨nofun, nofun⟩
  | ok found =>
    have ⟨⟨signers, actions⟩, rest⟩ := found
    constructor
    · rintro ⟨⟩
      exact ⟨rest, rfl, rfl⟩
    · rintro ⟨rest', hread, hend⟩
      cases hread
      exact congrArg Except.ok (by rw [← hend])

/-- What decoding an instruction stream guarantees. -/
theorem decodeIx_spec {orig : Bytes} {n : Nat} {ix : DecodedIx} (h : decodeIx orig n = .ok ix) :
    (∀ action ∈ ix.actions, action.InRange n) ∧ ix.endOfActionsInIx ≤ orig.length ∧
      (ix.actions.flatMap ActionBody.exitBytes).length ≤ orig.length := by
  have ⟨rest, hrun, hend⟩ := decodeIx_eq_ok.mp h
  simp only [readIx, Reader.run_bind_eq_ok] at hrun
  have ⟨_, _, hns, _, _, hsigners, _, _, hna, actions, _, hactions, hpair⟩ := hrun
  cases hpair
  have h1 := (Reader.Confined.leU32.suffix hns).length_le
  have h2 := ((confined_decodeSigners n none _).suffix hsigners).length_le
  have h3 := (Reader.Confined.leU32.suffix hna).length_le
  have h4 := decodeActions_exitBytes hactions
  exact ⟨decodeActions_inRange hactions, hend ▸ Nat.sub_le _ _, by omega⟩

end Vprogs.Runtime
