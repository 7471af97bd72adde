import Vprogs.Runtime.Attest
import Vprogs.Runtime.Views

/-!
Value in one transaction. Balances are moved by actions, raised by the outputs
that deposits consume and lowered by the exits that withdrawals emit; nothing
else changes their sum, and no sum is taken modulo the word size.
-/
namespace Vprogs.Runtime

open Abi

/-- The balance a slot holds; a slot without a user holds none. -/
def userBalance (r : Resource) : Nat :=
  match viewUser r with
  | some raw => raw.amount.toNat
  | none => 0

def totalBalance (resources : List Resource) : Nat := (resources.map userBalance).sum

/-- The transaction output the action consumes. -/
def ActionBody.depositOutput : ActionBody → Option UInt32
  | .deposit _ outputIdx _ => some outputIdx
  | _ => none

/-- The value of a transaction output; an index that does not parse has none. -/
def outputValue (tx : Transaction) (outputIdx : UInt32) : Nat :=
  match parseOutputAtIndexV1 tx.restPreimage outputIdx with
  | .ok out => out.value.toNat
  | .error _ => 0

def depositedValue (tx : Transaction) (outputs : List UInt32) : Nat :=
  (outputs.map (outputValue tx)).sum

def exitedValue (exits : List Exit) : Nat := (exits.map fun e => e.amount.toNat).sum

theorem userBalance_of_none {r : Resource} (h : viewUser r = none) : userBalance r = 0 := by
  rw [userBalance, h]

theorem userBalance_of_some {r : Resource} {raw : Raw} (h : viewUser r = some raw) :
    userBalance r = raw.amount.toNat := by
  rw [userBalance, h]

/-- Replacing one slot changes the sum by the difference of the two balances. -/
theorem totalBalance_set {resources : List Resource} {idx : Nat} {r : Resource}
    (h : resources[idx]? = some r) (r' : Resource) :
    totalBalance (resources.set idx r') + userBalance r = totalBalance resources + userBalance r' := by
  induction resources generalizing idx with
  | nil => cases h
  | cons first rest ih =>
    cases idx with
    | zero =>
      cases h
      simp only [totalBalance, List.set_cons_zero, List.map_cons, List.sum_cons]
      omega
    | succ idx =>
      have hrest := ih h
      simp only [totalBalance, List.set_cons_succ, List.map_cons, List.sum_cons] at hrest ⊢
      omega

/-! ### One action -/

/-- A slot that is still new is empty. -/
def EmptySlots (cx : ApplyContext) : Prop :=
  ∀ (idx : Nat) (r : Resource), cx.lifecycle[idx]? = some .new →
    cx.resources[idx]? = some r → r.data = []

/-- Writing a slot keeps new slots empty if the slot is not new afterwards. -/
theorem EmptySlots.set {cx cx' : ApplyContext} {idx : Nat} {r : Resource} (h : EmptySlots cx)
    (hres : cx'.resources = cx.resources.set idx r)
    (hlife : ∀ i, cx'.lifecycle[i]? = some .new → i ≠ idx ∧ cx.lifecycle[i]? = some .new) :
    EmptySlots cx' := by
  intro i r' hnew hr'
  have ⟨hne, hold⟩ := hlife i hnew
  rw [hres, List.getElem?_set_ne (Ne.symm hne)] at hr'
  exact h i r' hold hr'

/-- The lifecycle after an action that writes a slot which was live, or makes it so. -/
theorem new_of_written {lifecycle : List Lifecycle} {idx : Nat} {state : Lifecycle}
    (hstate : lifecycle[idx]? = some state) {i : Nat}
    (h : (if state = .new then lifecycle.set idx .live else lifecycle)[i]? = some .new) :
    i ≠ idx ∧ lifecycle[i]? = some .new := by
  split at h
  · have hne : i ≠ idx := by
      intro heq
      subst heq
      rw [List.getElem?_set_self' , hstate] at h
      cases h
    rw [List.getElem?_set_ne (Ne.symm hne)] at h
    exact ⟨hne, h⟩
  · next hlive =>
    refine ⟨fun heq => ?_, h⟩
    subst heq
    rw [hstate] at h
    exact hlive (Option.some.inj h)

/-- A user slot is not new, because new slots are empty. -/
theorem EmptySlots.new_of_user {cx : ApplyContext} (h : EmptySlots cx) {idx : Nat} {r : Resource}
    {raw : Raw} (hr : cx.resources[idx]? = some r) (hview : viewUser r = some raw) {i : Nat}
    (hi : cx.lifecycle[i]? = some .new) : i ≠ idx ∧ cx.lifecycle[i]? = some .new := by
  refine ⟨fun heq => ?_, hi⟩
  subst heq
  rw [viewUser_nil (h i r hi hr)] at hview
  cases hview

/-- A credit adds its amount without wrapping. -/
theorem Credited.userBalance {P : Primitives} {amount : UInt64} {destInit : Option LockEnum}
    {dst dst' : Resource} {state : Lifecycle} (h : Credited P amount destInit dst state dst')
    (hvalid : ∀ lock ∈ destInit.toList, lock.Valid) :
    Runtime.userBalance dst' = Runtime.userBalance dst + amount.toNat := by
  cases h with
  | created lock hlock hid hmin hempty =>
    have hl : lock.Valid := hvalid lock (by rw [hlock]; exact List.mem_singleton.mpr rfl)
    rw [userBalance_of_some (viewUser_userBytes dst amount _ hl),
      userBalance_of_none (viewUser_nil hempty), Nat.zero_add]
  | credited raw hview hsum =>
    rw [userBalance_of_some (viewUser_setAmount hview _), userBalance_of_some hview]
    exact (UInt64.toNat_add _ _).trans (Nat.mod_eq_of_lt hsum)

/-- A debit takes its amount without wrapping. -/
theorem userBalance_debit {r : Resource} {raw : Raw} {amount : UInt64}
    (hview : viewUser r = some raw) (hle : amount ≤ raw.amount) :
    userBalance (r.setData { raw with amount := raw.amount - amount }.toBytes) + amount.toNat =
      userBalance r := by
  rw [userBalance_of_some (viewUser_setAmount hview _), userBalance_of_some hview]
  have hsub : (raw.amount - amount).toNat = raw.amount.toNat - amount.toNat :=
    UInt64.toNat_sub_of_le _ _ hle
  have : amount.toNat ≤ raw.amount.toNat := UInt64.le_iff_toNat_le.mp hle
  change (raw.amount - amount).toNat + amount.toNat = raw.amount.toNat
  omega

section

variable {P : Primitives} {auth : AuthContext} {cx cx' : ApplyContext}

/-- What one action does to the value in the context. -/
structure Moves (action : ActionBody) (cx cx' : ApplyContext) : Prop where
  slots : EmptySlots cx'
  tx : cx'.tx = cx.tx
  consumed : cx'.consumedOutputs = cx.consumedOutputs ++ action.depositOutput.toList
  fresh : ∀ idx ∈ action.depositOutput, idx ∉ cx.consumedOutputs
  parses : ∀ idx ∈ action.depositOutput, ∃ out, parseOutputAtIndexV1 cx.tx.restPreimage idx = .ok out
  balance : totalBalance cx'.resources + exitedValue action.exits =
    totalBalance cx.resources + depositedValue cx.tx action.depositOutput.toList

theorem applyUpdate_moves {idx : UInt8} {min : UInt64} {covenantId : Hash} {lock : LockEnum}
    (hslots : EmptySlots cx) (h : applyUpdate P auth idx min covenantId lock cx = .ok cx') :
    Moves (.update idx min covenantId lock) cx cx' := by
  have ⟨target, cur, _, htarget, _, hlive, hcur, _, _, _, hcx⟩ := applyUpdate_eq_ok h
  subst hcx
  refine ⟨hslots.set rfl fun i hi => ?_, rfl, (List.append_nil _).symm, nofun, nofun, ?_⟩
  · refine ⟨fun heq => ?_, hi⟩
    subst heq
    change cx.lifecycle[idx.toNat]? = some .new at hi
    rw [hlive] at hi
    cases hi
  · have hset := totalBalance_set htarget (target.setData (configBytes min covenantId lock))
    rw [userBalance_of_none (viewUser_of_config hcur),
      userBalance_of_none (viewUser_configBytes _ _ _ _)] at hset
    exact hset

theorem applyInit_moves {idx : UInt8} {min : UInt64} {covenantId : Hash} {lock : LockEnum}
    (hslots : EmptySlots cx) (h : applyInit P auth idx min covenantId lock cx = .ok cx') :
    Moves (.init idx min covenantId lock) cx cx' := by
  have ⟨target, htarget, _, hnew, _, hcx⟩ := applyInit_eq_ok h
  subst hcx
  refine ⟨hslots.set rfl fun i hi => new_of_written hnew hi, rfl, (List.append_nil _).symm,
    nofun, nofun, ?_⟩
  have hset := totalBalance_set htarget (target.setData (configBytes min covenantId lock))
  rw [userBalance_of_none (viewUser_nil (hslots _ _ hnew htarget)),
    userBalance_of_none (viewUser_configBytes _ _ _ _)] at hset
  exact hset

theorem applyTransfer_moves {src dst : UInt8} {amount : UInt64} {destInit : Option LockEnum}
    (hslots : EmptySlots cx) (hvalid : ∀ lock ∈ destInit.toList, lock.Valid)
    (h : applyTransfer P auth src dst amount destInit cx = .ok cx') :
    Moves (.transfer src dst amount destInit) cx cx' := by
  have ⟨hne, state, srcR, dstR, view, _, dstR', hstate, hsrc, hdst, hview, _, _, hle, hcredit, hcx⟩ :=
    applyTransfer_eq_ok h
  subst hcx
  have hidx : src.toNat ≠ dst.toNat := fun he => hne (UInt8.toNat_inj.mp he)
  let debited := srcR.setData { view with amount := view.amount - amount }.toBytes
  have hmid : EmptySlots (cx.setResource src.toNat debited) :=
    hslots.set rfl fun i hi => hslots.new_of_user hsrc hview hi
  refine ⟨hmid.set rfl fun i hi => new_of_written hstate hi, rfl, (List.append_nil _).symm,
    nofun, nofun, ?_⟩
  have hdst' : (cx.resources.set src.toNat debited)[dst.toNat]? = some dstR := by
    rw [List.getElem?_set_ne hidx, hdst]
  have hfirst := totalBalance_set hsrc debited
  have hsecond := totalBalance_set hdst' dstR'
  have hdebit := userBalance_debit hview hle
  have hadd := hcredit.userBalance hvalid
  change totalBalance ((cx.resources.set src.toNat debited).set dst.toNat dstR') + 0 =
    totalBalance cx.resources + 0
  change userBalance debited + amount.toNat = userBalance srcR at hdebit
  omega

theorem applyUpdateUserLock_moves {idx : UInt8} {lock : LockEnum} (hslots : EmptySlots cx)
    (hvalid : lock.Valid) (h : applyUpdateUserLock auth idx lock cx = .ok cx') :
    Moves (.updateUserLock idx lock) cx cx' := by
  have ⟨target, view, _, htarget, hview, _, _, hcx⟩ := applyUpdateUserLock_eq_ok h
  subst hcx
  refine ⟨hslots.set rfl fun i hi => hslots.new_of_user htarget hview hi, rfl,
    (List.append_nil _).symm, nofun, nofun, ?_⟩
  have hset := totalBalance_set htarget (target.setData (userBytes view.amount view.digest lock))
  rw [userBalance_of_some hview, userBalance_of_some (viewUser_userBytes _ _ _ hvalid)] at hset
  exact Nat.add_right_cancel hset

theorem applyDeposit_moves {idx : UInt8} {outputIdx : UInt32} {lock : LockEnum} (hslots : EmptySlots cx)
    (hvalid : lock.Valid) (h : applyDeposit P idx outputIdx lock cx = .ok cx') :
    Moves (.deposit idx outputIdx lock) cx cx' := by
  have ⟨hfresh, _, out, state, target, target', _, _, hout, _, _, hstate, htarget, _, hcredit, _, hcx⟩ :=
    applyDeposit_eq_ok h
  subst hcx
  refine ⟨hslots.set rfl fun i hi => new_of_written hstate hi, rfl, rfl, ?_, ?_, ?_⟩
  · intro i hi
    cases hi
    exact hfresh
  · intro i hi
    cases hi
    exact ⟨out, hout⟩
  · have hset := totalBalance_set htarget target'
    have hadd := hcredit.userBalance (List.forall_mem_singleton.mpr hvalid)
    have hvalue : depositedValue cx.tx [outputIdx] = out.value.toNat := by
      simp [depositedValue, outputValue, hout]
    change totalBalance (cx.resources.set idx.toNat target') + 0 =
      totalBalance cx.resources + depositedValue cx.tx [outputIdx]
    omega

theorem applyWithdraw_moves {idx : UInt8} {amount : UInt64} {dest : StandardSpk} (hslots : EmptySlots cx)
    (h : applyWithdraw P auth idx amount dest cx = .ok cx') : Moves (.withdraw idx amount dest) cx cx' := by
  have ⟨_, target, view, _, _, htarget, hview, _, _, _, hle, hcx⟩ := applyWithdraw_eq_ok h
  subst hcx
  refine ⟨hslots.set rfl fun i hi => hslots.new_of_user htarget hview hi, rfl,
    (List.append_nil _).symm, nofun, nofun, ?_⟩
  let debited := target.setData { view with amount := view.amount - amount }.toBytes
  have hset := totalBalance_set htarget debited
  have hdebit := userBalance_debit hview hle
  change totalBalance (cx.resources.set idx.toNat debited) + (amount.toNat + 0) =
    totalBalance cx.resources + 0
  change userBalance debited + amount.toNat = userBalance target at hdebit
  omega

theorem applyAction_moves {action : ActionBody} (hslots : EmptySlots cx) (hvalid : action.Valid)
    (h : applyAction P auth action cx = .ok cx') : Moves action cx cx' := by
  cases action with
  | update idx min covenantId lock => exact applyUpdate_moves hslots h
  | init idx min covenantId lock => exact applyInit_moves hslots h
  | transfer src dst amount destInit => exact applyTransfer_moves hslots hvalid h
  | updateUserLock idx lock =>
    exact applyUpdateUserLock_moves hslots (List.forall_mem_singleton.mp hvalid) h
  | deposit idx outputIdx lock =>
    exact applyDeposit_moves hslots (List.forall_mem_singleton.mp hvalid) h
  | withdraw idx amount dest => exact applyWithdraw_moves hslots h

/-! ### A run of actions -/

/-- The value in a context that has applied `actions` to the given resources: every
deposit consumed an output of its own, and balances differ by deposits and exits. -/
structure Conserves (tx : Transaction) (before : List Resource) (actions : List ActionBody)
    (cx : ApplyContext) : Prop where
  consumed : cx.consumedOutputs = actions.filterMap ActionBody.depositOutput
  distinct : cx.consumedOutputs.Nodup
  parses : ∀ idx ∈ cx.consumedOutputs, ∃ out, parseOutputAtIndexV1 tx.restPreimage idx = .ok out
  exits : cx.exits.buf = (actions.flatMap ActionBody.exits).flatMap Exit.encode
  balance : totalBalance cx.resources + exitedValue (actions.flatMap ActionBody.exits) =
    totalBalance before + depositedValue tx cx.consumedOutputs

/-- The run invariant: no action touches the transaction, and what is conserved so far is
conserved for it. -/
structure Balanced (tx : Transaction) (before : List Resource) (actions : List ActionBody)
    (cx : ApplyContext) : Prop where
  unchanged : cx.tx = tx
  slots : EmptySlots cx
  conserves : Conserves tx before actions cx

theorem exitedValue_append (xs ys : List Exit) :
    exitedValue (xs ++ ys) = exitedValue xs + exitedValue ys := by
  simp [exitedValue]

theorem depositedValue_append (tx : Transaction) (xs ys : List UInt32) :
    depositedValue tx (xs ++ ys) = depositedValue tx xs + depositedValue tx ys := by
  simp [depositedValue]

theorem Balanced.step {tx : Transaction} {before : List Resource} {done : List ActionBody}
    {action : ActionBody} (h : Balanced tx before done cx) (hvalid : action.Valid)
    (hok : applyAction P auth action cx = .ok cx') : Balanced tx before (done ++ [action]) cx' := by
  have hmoves := applyAction_moves h.slots hvalid hok
  have hcons := h.conserves
  refine ⟨hmoves.tx.trans h.unchanged, hmoves.slots, ?_, ?_, ?_, ?_, ?_⟩
  · rw [hmoves.consumed, hcons.consumed, List.filterMap_append]
    cases action <;> rfl
  · rw [hmoves.consumed, List.nodup_append]
    refine ⟨hcons.distinct, ?_, ?_⟩
    · cases action.depositOutput <;> simp
    · intro a ha b hb heq
      rw [Option.mem_toList] at hb
      exact hmoves.fresh b hb (heq ▸ ha)
  · intro idx hidx
    rw [hmoves.consumed, List.mem_append, Option.mem_toList] at hidx
    match hidx with
    | .inl hold => exact hcons.parses idx hold
    | .inr hnew =>
      rw [← h.unchanged]
      exact hmoves.parses idx hnew
  · rw [applyAction_exits hok, hcons.exits, List.flatMap_append, List.flatMap_append,
      List.flatMap_singleton]
    rfl
  · rw [hmoves.consumed, List.flatMap_append, List.flatMap_singleton, exitedValue_append,
      depositedValue_append]
    have := h.unchanged ▸ hmoves.balance
    have := hcons.balance
    omega

theorem Balanced.run {tx : Transaction} {before : List Resource} {done actions : List ActionBody}
    (h : Balanced tx before done cx) (hvalid : ∀ action ∈ actions, action.Valid)
    (hok : applyActions P auth cx actions = .ok cx') : Balanced tx before (done ++ actions) cx' := by
  induction actions generalizing cx done with
  | nil =>
    cases hok
    rw [List.append_nil]
    exact h
  | cons action rest ih =>
    have ⟨mid, hmid, hrest⟩ := ok_bind_iff.mp hok
    have hstep := h.step (hvalid action List.mem_cons_self) hmid
    have hrun := ih hstep (fun a ha => hvalid a (List.mem_cons_of_mem _ ha)) hrest
    rw [List.append_assoc] at hrun
    exact hrun

/-- A run over two lists stops between them. -/
theorem applyActions_append {pre post : List ActionBody} :
    applyActions P auth cx (pre ++ post) = .ok cx' ↔
      ∃ mid, applyActions P auth cx pre = .ok mid ∧ applyActions P auth mid post = .ok cx' := by
  induction pre generalizing cx with
  | nil => exact ⟨fun h => ⟨cx, rfl, h⟩, fun ⟨_, hmid, h⟩ => by cases hmid; exact h⟩
  | cons action rest ih =>
    simp only [List.cons_append, applyActions, ok_bind_iff, ih]
    constructor
    · intro ⟨first, hfirst, mid, hmid, hpost⟩
      exact ⟨mid, ⟨first, hfirst, hmid⟩, hpost⟩
    · intro ⟨mid, ⟨first, hfirst, hmid⟩, hpost⟩
      exact ⟨first, hfirst, mid, hmid, hpost⟩

end

/-! ### The guest's run -/

theorem new_emptySlots (tx : Transaction) {resources : List Resource} (exits : ExitSink)
    (deposit : DepositSink) (h : ∀ r ∈ resources, r.isNew = r.data.isEmpty) :
    EmptySlots (ApplyContext.new tx resources exits deposit) := by
  intro idx r hnew hr
  change (resources.map Lifecycle.fromResource)[idx]? = some .new at hnew
  change resources[idx]? = some r at hr
  rw [List.getElem?_map, hr, Option.map_some, Option.some.injEq, Lifecycle.fromResource,
    h r (List.mem_of_getElem? hr)] at hnew
  split at hnew
  · next hempty => exact List.isEmpty_iff.mp hempty
  · cases hnew

theorem new_balanced (tx : Transaction) {resources : List Resource}
    (h : ∀ r ∈ resources, r.isNew = r.data.isEmpty) :
    Balanced tx resources [] (ApplyContext.new tx resources {} {}) where
  unchanged := rfl
  slots := new_emptySlots tx {} {} h
  conserves := ⟨rfl, List.nodup_nil, nofun, rfl, rfl⟩

/-- A guest that returns has executed the inputs it decoded and journals the result. -/
theorem processor_eq_ok {P : Primitives} {buf rest journal out : Bytes} {inputs : Inputs}
    (hdecode : Inputs.decode.run buf = .ok (inputs, rest)) (h : processor P buf = .ok (journal, out)) :
    ∃ result, execute P.keyedHash (handler P) inputs = .ok result ∧
      journal = journalBytes P.sha256 inputs result := by
  have ⟨found, hfound, h⟩ := ok_bind_iff.mp h
  rw [hdecode] at hfound
  cases hfound
  have ⟨result, hresult, hpure⟩ := ok_bind_iff.mp h
  cases hpure
  exact ⟨result, hresult, rfl⟩

theorem execute_of_run_error {P : Primitives} {inputs : Inputs} {exec : ExecutionInput} {e : Error}
    {result : Except Error Effects} (hv : inputs.version = Transaction.V1)
    (hexec : inputs.executionInput = some exec)
    (hrun : run P exec.tx exec.resources {} {} = .error (.err e))
    (h : execute P.keyedHash (handler P) inputs = .ok result) : result = .error e := by
  rw [execute, if_pos hv] at h
  simp only [ok_bind_iff, orPanic_eq_ok, hexec] at h
  have ⟨found, hfound, _, _, hresult⟩ := h
  cases hfound
  rw [handler, hrun] at hresult
  cases hresult
  rfl

/-- On inputs the guest decodes, balances, exits and deposits add up after every
action of a successful run, and a failed run journals its error alone. -/
theorem run_conserves_value (P : Primitives) {buf rest : Bytes} {inputs : Inputs}
    {exec : ExecutionInput} (hdecode : Inputs.decode.run buf = .ok (inputs, rest))
    (hexec : inputs.executionInput = some exec) :
    (∀ cx, run P exec.tx exec.resources {} {} = .ok cx → ∃ ix auth,
      decodeIx exec.tx.payload.ixData exec.resources.length = .ok ix ∧
        ∀ pre post, ix.actions = pre ++ post → ∃ mid,
          applyActions P auth (ApplyContext.new exec.tx exec.resources {} {}) pre = .ok mid ∧
            applyActions P auth mid post = .ok cx ∧ Conserves exec.tx exec.resources pre mid) ∧
      ∀ e journal out, run P exec.tx exec.resources {} {} = .error (.err e) →
        processor P buf = .ok (journal, out) →
          JournalEntries.decode journal =
            .ok ⟨InputCommitment.ofInputs P.sha256 inputs, .error e⟩ := by
  have hspec := Inputs.decode_spec hdecode
  have hnew := hspec.isNew exec hexec
  constructor
  · intro cx hrun
    have ⟨ix, auth, hix, hok⟩ := run_eq_ok hrun
    refine ⟨ix, auth, hix, fun pre post hsplit => ?_⟩
    rw [hsplit] at hok
    have ⟨mid, hmid, hpost⟩ := applyActions_append.mp hok
    have hvalid : ∀ action ∈ pre, action.Valid := by
      intro action hmem
      exact decodeIx_valid hix action (hsplit ▸ List.mem_append_left _ hmem)
    exact ⟨mid, hmid, hpost, ((new_balanced exec.tx hnew).run hvalid hmid).conserves⟩
  · intro e journal out hrun hproc
    have hsafe := run_safe P exec.tx exec.resources {} {} (hspec.ixData exec hexec)
    rw [hrun] at hsafe
    have ⟨result, hresult, hjournal⟩ := processor_eq_ok hdecode hproc
    have hv : inputs.version = Transaction.V1 := by
      have hpresent := hspec.present
      rw [hexec] at hpresent
      exact of_decide_eq_true hpresent.symm
    have herror := execute_of_run_error hv hexec hrun hresult
    subst herror
    rw [hjournal]
    exact JournalEntries.decode_journalBytes ⟨hspec.present, hspec.count⟩ hsafe

namespace Sample

/-- One output that pays the deposit address. -/
def depositTx : L1.Tx :=
  { emptyPayloadTx with outputs := [⟨500, 0, depositSpk primitives zeroHash, none⟩] }

def resourceId (n : UInt8) : ResourceId := ⟨n :: List.replicate 31 0, by simp⟩

/-- Deposit 500 to the first user, who transfers 40 to the second, who withdraws 30. -/
def depositIx : Bytes :=
  leBytes 4 0 ++ (leBytes 4 3 ++ ([0x05, 1] ++ (leBytes 4 0 ++ ([UNLOCKED_TAG] ++ ([0x03, 1, 2] ++
    (leBytes 8 40 ++ ([0, 0x06, 2] ++ (leBytes 8 30 ++ (StandardSpk.pubKey zeroHash).encode))))))))

def depositPayload : Bytes :=
  encodeMany [⟨resourceId 0, .write⟩, ⟨resourceId 1, .write⟩, ⟨resourceId 2, .write⟩]
    AccessMetadata.encode ++ depositIx

/-- The config with a minimum withdrawal of 10, and users with balances 7 and 5. -/
def depositBuffer : Bytes :=
  leBytes 2 1 ++ (zeroHash.val ++ (leBytes 4 0 ++ (zeroHash.val ++
    (Transaction.encode depositPayload depositTx.restPreimage ++
      (Resource.encode 0 (configBytes 10 zeroHash .unlocked) ++
        (Resource.encode 1 (userBytes 7 zeroHash .unlocked) ++
          Resource.encode 2 (userBytes 5 zeroHash .unlocked)))))))

def depositInputs : Inputs :=
  match Inputs.decode.run depositBuffer with
  | .ok (inputs, _) => inputs
  | .error _ => ⟨0, zeroHash, 0, none⟩

def depositExec : ExecutionInput :=
  match depositInputs.executionInput with
  | some exec => exec
  | none => ⟨zeroHash, ⟨⟨[], [], []⟩, []⟩, []⟩

theorem depositExec_conserves : ∃ (cx : ApplyContext) (ix : DecodedIx),
    run primitives depositExec.tx depositExec.resources {} {} = .ok cx ∧
      totalBalance depositExec.resources = 12 ∧
        Conserves depositExec.tx depositExec.resources ix.actions cx := by
  have hdecode : Inputs.decode.run depositBuffer = .ok (depositInputs, []) := by decide +kernel
  have hexec : depositInputs.executionInput = some depositExec := by decide +kernel
  have hok : (run primitives depositExec.tx depositExec.resources {} {}).toBool = true := by
    decide +kernel
  match hrun : run primitives depositExec.tx depositExec.resources {} {} with
  | .error e => rw [hrun] at hok; cases hok
  | .ok cx =>
    have ⟨ix, _, _, hall⟩ := (run_conserves_value primitives hdecode hexec).1 cx hrun
    have ⟨mid, _, hnil, hconserves⟩ := hall ix.actions [] (List.append_nil _).symm
    cases hnil
    exact ⟨cx, ix, rfl, by decide +kernel, hconserves⟩

end Sample

end Vprogs.Runtime
