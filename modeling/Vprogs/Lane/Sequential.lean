import Vprogs.Abi.InputRoundTrip
import Vprogs.Abi.JournalRoundTrip
import Vprogs.Lane.GuestSpec
import Vprogs.Smt.WriteSoundness

/-!
Sequential execution of lane transactions. The batch verifier keeps one hash per
membership of the state proof and folds the journals over them; the meaning of
the journals is given here by an interpreter over a map from resource ids to
value hashes. The two agree because the proof's keys are distinct and because a
genuine journal names each resource at most once.
-/
namespace Vprogs.Lane

open Abi BatchProcessor

/-! ### The interpreter -/

/-- The value hash of every resource. -/
abbrev State := ResourceId → Hash

/-- The outputs of one transaction written over the resources it declared. -/
def writeOutputs (S : State) : List (InputResourceCommitment × OutputResourceCommitment) → State
  | [] => S
  | (r, .changed hash) :: rest => writeOutputs (Function.update S r.resourceId hash) rest
  | (_, .unchanged) :: rest => writeOutputs S rest

/-- One transaction: the state after it, its exits and the deposit address it
recorded. Every executed transaction declares the values it starts from; only a
successful one has effects. -/
inductive TxStep (S : State) (entries : JournalEntries) : State → List Exit → Hash → Prop
  | success {exec : ExecutionContext} {log : Exits} {deposit : Hash} {resources : Bytes}
      {exits : List Exit} {outputs : List OutputResourceCommitment}
      (hexec : entries.inputCommitment.executionContext = some exec)
      (houtput : entries.outputCommitment = .success log deposit resources)
      (hdeclared : ∀ r ∈ exec.resources, S r.resourceId = r.hash)
      (hexits : log.iter = exits.map .ok)
      (houtputs : OutputResourceCommitment.decode.items resources = outputs.map .ok)
      (hlength : outputs.length = exec.resources.length) :
      TxStep S entries (writeOutputs S (exec.resources.zip outputs)) exits deposit
  | failed {exec : ExecutionContext} {e : Error}
      (hexec : entries.inputCommitment.executionContext = some exec)
      (houtput : entries.outputCommitment = .error e)
      (hdeclared : ∀ r ∈ exec.resources, S r.resourceId = r.hash) :
      TxStep S entries S [] zeroHash
  | unsupported (hexec : entries.inputCommitment.executionContext = none)
      (houtput : entries.outputCommitment = .error ErrorCode.versionIncompatible.toError) :
      TxStep S entries S [] zeroHash

/-- A list of transactions, one after the other. -/
inductive TxRun : State → List JournalEntries → State → List Exit → List Hash → Prop
  | nil {S : State} : TxRun S [] S [] []
  | cons {S mid S' : State} {entries : JournalEntries} {rest : List JournalEntries}
      {exits more : List Exit} {deposit : Hash} {deposits : List Hash}
      (hstep : TxStep S entries mid exits deposit) (hrest : TxRun mid rest S' more deposits) :
      TxRun S (entries :: rest) S' (exits ++ more) (deposit :: deposits)

theorem TxRun.append {S mid S' : State} {xs ys : List JournalEntries} {exits more : List Exit}
    {deposits others : List Hash} (h : TxRun S xs mid exits deposits)
    (h' : TxRun mid ys S' more others) : TxRun S (xs ++ ys) S' (exits ++ more) (deposits ++ others) := by
  induction h with
  | nil => exact h'
  | cons hstep hrest ih =>
    rw [List.append_assoc]
    exact .cons hstep (ih h')

/-- The address carried for a list of recorded ones: zero if there is none, and
otherwise the one they all are. -/
structure Carried (deposits : List Hash) (carry : Hash) : Prop where
  zero : carry = zeroHash ↔ ∀ d ∈ deposits, d = zeroHash
  same : ∀ d ∈ deposits, d ≠ zeroHash → d = carry

theorem Carried.nil : Carried [] zeroHash := ⟨⟨fun _ => nofun, fun _ => rfl⟩, nofun⟩

theorem Carried.singleton (d : Hash) : Carried [d] d where
  zero := by simp
  same := fun _ h _ => List.mem_singleton.mp h

theorem carryDepositHash_eq_ok {what : String} {carry next carry' : Hash}
    (h : carryDepositHash what carry next = .ok carry') :
    (next = zeroHash ∧ carry' = carry) ∨ (carry = zeroHash ∧ carry' = next) ∨
      (carry = next ∧ carry' = carry) := by
  unfold carryDepositHash at h
  split at h
  · next hzero =>
    cases h
    exact .inl ⟨hzero, rfl⟩
  · split at h
    · next hzero =>
      cases h
      exact .inr (.inl ⟨hzero, rfl⟩)
    · have ⟨_, hcheck, hpure⟩ := ok_bind_iff.mp h
      cases hpure
      exact .inr (.inr ⟨eq_of_beq (check_eq_ok.mp hcheck), rfl⟩)

/-- Folding in an address that stands for recorded ones. -/
theorem Carried.append {xs ys : List Hash} {carry next carry' : Hash} {what : String}
    (hx : Carried xs carry) (hy : Carried ys next)
    (h : carryDepositHash what carry next = .ok carry') : Carried (xs ++ ys) carry' := by
  have split : (∀ d ∈ xs ++ ys, d = zeroHash) ↔ carry = zeroHash ∧ next = zeroHash := by
    rw [List.forall_mem_append, hx.zero, hy.zero]
  have either : ∀ d ∈ xs ++ ys, d ≠ zeroHash →
      (d = carry ∧ carry ≠ zeroHash) ∨ (d = next ∧ next ≠ zeroHash) := by
    intro d hd hne
    match List.mem_append.mp hd with
    | .inl hmem => exact .inl ⟨hx.same d hmem hne, hx.same d hmem hne ▸ hne⟩
    | .inr hmem => exact .inr ⟨hy.same d hmem hne, hy.same d hmem hne ▸ hne⟩
  refine ⟨?_, fun d hd hne => ?_⟩
  · rw [split]
    match carryDepositHash_eq_ok h with
    | .inl ⟨hnext, heq⟩ => rw [heq, hnext]; exact ⟨fun hc => ⟨hc, rfl⟩, fun hc => hc.1⟩
    | .inr (.inl ⟨hcarry, heq⟩) => rw [heq, hcarry]; exact ⟨fun hc => ⟨rfl, hc⟩, fun hc => hc.2⟩
    | .inr (.inr ⟨hsame, heq⟩) => rw [heq, ← hsame]; exact ⟨fun hc => ⟨hc, hc⟩, fun hc => hc.1⟩
  · match carryDepositHash_eq_ok h, either d hd hne with
    | .inl ⟨_, heq⟩, .inl ⟨hd, _⟩ => exact hd.trans heq.symm
    | .inl ⟨hnext, _⟩, .inr ⟨_, hne⟩ => exact absurd hnext hne
    | .inr (.inl ⟨hcarry, _⟩), .inl ⟨_, hne⟩ => exact absurd hcarry hne
    | .inr (.inl ⟨_, heq⟩), .inr ⟨hd, _⟩ => exact hd.trans heq.symm
    | .inr (.inr ⟨_, heq⟩), .inl ⟨hd, _⟩ => exact hd.trans heq.symm
    | .inr (.inr ⟨hsame, heq⟩), .inr ⟨hd, _⟩ => exact hd.trans (hsame.symm.trans heq.symm)

/-! ### The verifier's table -/

theorem keyOfId_injective {a b : ResourceId} (h : keyOfId a = keyOfId b) : a = b := by
  have bound : ∀ id : ResourceId, leNat id.val.reverse < 2 ^ 256 := by
    intro id
    have := leNat_lt id.val.reverse
    rw [List.length_reverse, id.length_val] at this
    simpa using this
  have heq := congrArg BitVec.toNat h
  simp only [keyOfId, BitVec.toNat_ofNat, Nat.mod_eq_of_lt (bound a), Nat.mod_eq_of_lt (bound b)]
    at heq
  have hrev := leNat_injective (by simp) heq
  exact Arr.ext (List.reverse_injective hrev)

theorem member_key_injective {p : Smt.Proof Hash} (sorted : p.checkSortedQueriedKeys = .ok ())
    {i j : Nat} {m m' : Smt.Member Hash} (hi : p.member i = .ok m) (hj : p.member j = .ok m')
    (hkey : m.key = m'.key) : i = j := by
  have ⟨_, _, hmi, hki, _⟩ := Smt.Proof.member_eq_ok hi
  have ⟨_, _, hmj, hkj, _⟩ := Smt.Proof.member_eq_ok hj
  have hlti := (List.getElem?_eq_some_iff.mp hmi).1
  have hltj := (List.getElem?_eq_some_iff.mp hmj).1
  have hnodup := Smt.Proof.nodup_queriedKey sorted
  have hinj := List.inj_on_of_nodup_map hnodup (List.mem_range.mpr hlti) (List.mem_range.mpr hltj)
  apply hinj
  simp [Smt.Proof.queriedKey, hki, hkj, hkey]

/-- The verifier's hash at a membership is the value of the resource behind it. -/
structure Tracks (v : Verifier) (S : State) : Prop where
  sorted : v.inputs.proof.checkSortedQueriedKeys = .ok ()
  latest : ∀ (i : Nat) (m : Smt.Member Hash) (id : ResourceId), v.inputs.proof.member i = .ok m →
    m.key = keyOfId id → v.latestValueHashes[i]? = some (S id)

theorem verifiedBatchIdx_eq_ok {v : Verifier} {r : InputResourceCommitment} {i : Nat}
    (h : v.verifiedBatchIdx r = .ok i) :
    v.latestValueHashes[i]? = some r.hash ∧
      ∃ m, v.inputs.proof.member i = .ok m ∧ m.key = keyOfId r.resourceId := by
  simp only [Verifier.verifiedBatchIdx, ok_bind_iff, orPanic_eq_ok, expect_eq_ok, check_eq_ok] at h
  obtain ⟨latest, hlatest, _, hhash, m, hm, _, hid, hpure⟩ := h
  cases hpure
  exact ⟨by rw [hlatest, eq_of_beq hhash], m, hm, (eq_of_beq hid).symm⟩

theorem Tracks.declared {v : Verifier} {S : State} (h : Tracks v S) {r : InputResourceCommitment}
    {i : Nat} (hidx : v.verifiedBatchIdx r = .ok i) : S r.resourceId = r.hash := by
  have ⟨hlatest, m, hm, hkey⟩ := verifiedBatchIdx_eq_ok hidx
  rw [h.latest i m r.resourceId hm hkey] at hlatest
  exact Option.some.inj hlatest

theorem Tracks.set {v : Verifier} {S : State} (h : Tracks v S) {r : InputResourceCommitment}
    {i : Nat} (hidx : v.verifiedBatchIdx r = .ok i) (hash : Hash) :
    Tracks { v with latestValueHashes := v.latestValueHashes.set i hash }
      (Function.update S r.resourceId hash) := by
  have ⟨hlatest, m, hm, hkey⟩ := verifiedBatchIdx_eq_ok hidx
  refine ⟨h.sorted, fun j m' id hm' hkey' => ?_⟩
  by_cases hji : j = i
  · subst hji
    rw [hm] at hm'
    cases hm'
    have hid := keyOfId_injective (hkey'.symm.trans hkey)
    rw [hid, Function.update_self, List.getElem?_set_self', hlatest]
    rfl
  · have hne : id ≠ r.resourceId := by
      intro heq
      exact hji (member_key_injective h.sorted hm' hm (by rw [hkey', hkey, heq]))
    rw [Function.update_of_ne hne, List.getElem?_set_ne (Ne.symm hji)]
    exact h.latest j m' id hm' hkey'

/-- A failed transaction only has its declared values checked. -/
theorem applyResources_failed {v v' : Verifier} {S : State} {rs : List InputResourceCommitment}
    {left : Option (List (Result OutputResourceCommitment))} (h : Tracks v S)
    (hok : v.applyResources none rs = .ok (v', left)) : v' = v ∧ ∀ r ∈ rs, S r.resourceId = r.hash := by
  induction rs with
  | nil =>
    cases hok
    exact ⟨rfl, nofun⟩
  | cons r rs ih =>
    have ⟨i, hi, hrest⟩ := ok_bind_iff.mp hok
    have ⟨hv, hdeclared⟩ := ih hrest
    exact ⟨hv, List.forall_mem_cons.mpr ⟨h.declared hi, hdeclared⟩⟩

/-- A successful one has each checked and written in turn. As the resources are
distinct, no write is seen by a later check. -/
theorem applyResources_success {v v' : Verifier} {S : State} {rs : List InputResourceCommitment}
    {items : List (Result OutputResourceCommitment)}
    {left : Option (List (Result OutputResourceCommitment))} (h : Tracks v S)
    (hdistinct : (rs.map (·.resourceId)).Nodup) (hok : v.applyResources (some items) rs = .ok (v', left)) :
    ∃ outputs : List OutputResourceCommitment, outputs.length = rs.length ∧
      (∃ rest, left = some rest ∧ items = outputs.map .ok ++ rest) ∧
      (∀ r ∈ rs, S r.resourceId = r.hash) ∧ Tracks v' (writeOutputs S (rs.zip outputs)) ∧
      v'.exits = v.exits ∧ v'.depositSpkHash = v.depositSpkHash := by
  induction rs generalizing v S items with
  | nil =>
    cases hok
    exact ⟨[], rfl, ⟨items, rfl, rfl⟩, nofun, h, rfl, rfl⟩
  | cons r rs ih =>
    simp only [Verifier.applyResources, ok_bind_iff, orPanic_eq_ok, expectOk_eq_ok] at hok
    have ⟨i, hi, ⟨output, more⟩, hhead, out, hout, hok⟩ := hok
    dsimp only at hout hok
    have ⟨hnew, hothers⟩ := List.nodup_cons.mp hdistinct
    have hitems : items = .ok out :: more := by
      match items, hhead with
      | first :: tail, hhead =>
        cases hhead
        exact congrArg (· :: tail) hout
    have hdeclared := h.declared hi
    match out, hitems, hok with
    | .unchanged, hitems, hok =>
      have ⟨outputs, hlen, ⟨rest, hleft, hmore⟩, hall, htracks, hsinks⟩ := ih h hothers hok
      refine ⟨.unchanged :: outputs, congrArg (· + 1) hlen, ⟨rest, hleft, ?_⟩,
        List.forall_mem_cons.mpr ⟨hdeclared, hall⟩, htracks, hsinks⟩
      rw [hitems, hmore]
      rfl
    | .changed hash, hitems, hok =>
      have ⟨outputs, hlen, ⟨rest, hleft, hmore⟩, hall, htracks, hsinks⟩ :=
        ih (h.set hi hash) hothers hok
      refine ⟨.changed hash :: outputs, congrArg (· + 1) hlen, ⟨rest, hleft, ?_⟩,
        List.forall_mem_cons.mpr ⟨hdeclared, fun r' hr' => ?_⟩, htracks, hsinks⟩
      · rw [hitems, hmore]
        rfl
      · have hne : r'.resourceId ≠ r.resourceId := by
          intro heq
          exact hnew (List.mem_map.mpr ⟨r', hr', heq⟩)
        have := hall r' hr'
        rwa [Function.update_of_ne hne] at this

/-! ### Genuine journals -/

/-- The callback only accepts journals that the transaction guest committed, with
some program as its handler. -/
def Genuine (keyedHash : KeyedHash) (hash : DataHash) (verifyTxJournal : Hash → Bytes → Bool) : Prop :=
  ∀ imageId journal, verifyTxJournal imageId journal = true →
    ∃ handler buf out, processTransaction keyedHash hash handler buf = .ok (journal, out)

theorem ascending_nodup {accesses : List AccessMetadata}
    (h : AccessMetadata.ascending accesses = true) : (accesses.map (·.resourceId)).Nodup := by
  have trans : Trans (· < · : UInt8 → UInt8 → Prop) (· < ·) (· < ·) := ⟨UInt8.lt_trans⟩
  have pairwise : accesses.Pairwise fun a b => a.resourceId.val < b.resourceId.val := by
    induction accesses with
    | nil => exact .nil
    | cons a rest ih =>
      cases rest with
      | nil => exact List.pairwise_singleton _ _
      | cons b rest =>
        rw [AccessMetadata.ascending, Bool.and_eq_true, decide_eq_true_eq] at h
        have hrest := ih h.2
        refine List.pairwise_cons.mpr ⟨fun c hc => ?_, hrest⟩
        match List.mem_cons.mp hc with
        | .inl heq => exact heq ▸ h.1
        | .inr hmem => exact List.lt_trans h.1 ((List.pairwise_cons.mp hrest).1 c hmem)
  refine List.pairwise_map.mpr (pairwise.imp ?_)
  intro a b hlt heq
  rw [heq] at hlt
  exact List.lt_irrefl _ hlt

/-- The guest decoded its resources from a strictly ascending access list, so a
genuine journal names each of them once. -/
theorem Genuine.distinct {keyedHash : KeyedHash} {hash : DataHash}
    {verifyTxJournal : Hash → Bytes → Bool} (h : Genuine keyedHash hash verifyTxJournal)
    {imageId : Hash} {journal : Bytes} {entries : JournalEntries} {exec : ExecutionContext}
    (haccepted : verifyTxJournal imageId journal = true)
    (hdecode : JournalEntries.decode journal = .ok entries)
    (hexec : entries.inputCommitment.executionContext = some exec) :
    (exec.resources.map (·.resourceId)).Nodup := by
  obtain ⟨handler, buf, out, hproc⟩ := h imageId journal haccepted
  simp only [processTransaction, ok_bind_iff, expectOk_eq_ok] at hproc
  obtain ⟨⟨inputs, left⟩, hinputs, result, _, hpure⟩ := hproc
  cases hpure
  have hdecoded := Inputs.decode_spec hinputs
  have hshape : inputs.Shaped := ⟨hdecoded.present, hdecoded.count⟩
  have hcommitment := JournalEntries.inputCommitment_of_decode hshape hdecode
  rw [hcommitment] at hexec
  obtain ⟨execInput, hsome, hexec⟩ := Option.map_eq_some_iff.mp hexec
  have hids : exec.resources.map (·.resourceId) =
      (execInput.resources.map (·.accessMetadata)).map (·.resourceId) := by
    rw [← hexec]
    simp only [ExecutionContext.ofInput, List.map_map]
    rfl
  rw [hids]
  exact ascending_nodup (hdecoded.ascending execInput hsome)

/-! ### One transaction -/

/-- Exits decoded from a log are appended in order. -/
theorem emitExits_eq_ok {sink sink' : ExitSink} {items : List (Result Exit)}
    (h : Verifier.emitExits sink items = .ok sink') :
    ∃ exits : List Exit, items = exits.map .ok ∧
      sink'.buf = sink.buf ++ exits.flatMap Exit.encode := by
  induction items generalizing sink with
  | nil =>
    cases h
    exact ⟨[], rfl, by simp⟩
  | cons item items ih =>
    simp only [Verifier.emitExits, ok_bind_iff, expectOk_eq_ok] at h
    obtain ⟨e, hitem, sink₁, hemit, hrest⟩ := h
    cases hemit
    obtain ⟨exits, hitems, hbuf⟩ := ih hrest
    exact ⟨e :: exits, by rw [hitem, hitems]; rfl, by simp [hbuf]⟩

/-- Where the verifier stands after a run: its table holds the state, its log the
exits and its address the recorded deposits. -/
structure Stands (v : Verifier) (S : State) (exits : List Exit) (deposits : List Hash) : Prop where
  tracks : Tracks v S
  exits : v.exits.buf = exits.flatMap Exit.encode
  carried : Carried deposits v.depositSpkHash

theorem Carried.skip {deposits : List Hash} {carry : Hash} (h : Carried deposits carry) :
    Carried (deposits ++ [zeroHash]) carry := by
  have hcarry : carryDepositHash "batch" carry zeroHash = .ok carry := if_pos rfl
  exact h.append (Carried.singleton zeroHash) hcarry

theorem Stands.skip {v : Verifier} {S : State} {exits : List Exit} {deposits : List Hash}
    (h : Stands v S exits deposits) : Stands v S (exits ++ []) (deposits ++ [zeroHash]) where
  tracks := h.tracks
  exits := by rw [List.append_nil, h.exits]
  carried := h.carried.skip

theorem applyEntries_step {v v' : Verifier} {S : State} {exits : List Exit} {deposits : List Hash}
    {contextHash : Hash} {entries : JournalEntries} (h : Stands v S exits deposits)
    (hshape : Verifier.checkShape entries = .ok ())
    (hdistinct : ∀ exec, entries.inputCommitment.executionContext = some exec →
      (exec.resources.map (·.resourceId)).Nodup)
    (hok : v.applyEntries contextHash entries = .ok v') :
    ∃ S' more deposit, TxStep S entries S' more deposit ∧
      Stands v' S' (exits ++ more) (deposits ++ [deposit]) := by
  cases hexec : entries.inputCommitment.executionContext with
  | none =>
    rw [Verifier.applyEntries, hexec] at hok
    cases hok
    have houtput : entries.outputCommitment = .error ErrorCode.versionIncompatible.toError := by
      rw [Verifier.checkShape, hexec] at hshape
      split at hshape
      · next heq => cases heq
      · next code _ houtput =>
        rw [houtput, eq_of_beq (check_eq_ok.mp hshape)]
        rfl
      · cases hshape
    exact ⟨S, [], zeroHash, .unsupported hexec houtput, h.skip⟩
  | some exec =>
    rw [Verifier.applyEntries, hexec] at hok
    obtain ⟨_, _, hok⟩ := ok_bind_iff.mp hok
    cases houtput : entries.outputCommitment with
    | error e =>
      rw [houtput] at hok
      obtain ⟨⟨v₁, left⟩, hres, hpure⟩ := ok_bind_iff.mp hok
      cases hpure
      obtain ⟨hv, hdeclared⟩ := applyResources_failed h.tracks hres
      exact ⟨S, [], zeroHash, .failed hexec houtput hdeclared, hv ▸ h.skip⟩
    | success log deposit resources =>
      rw [houtput] at hok
      simp only [ok_bind_iff, check_eq_ok] at hok
      obtain ⟨carry, hcarry, emitted, hemit, ⟨v₁, left⟩, hres, _, hleft, hpure⟩ := hok
      cases hpure
      obtain ⟨more, hlog, hbuf⟩ := emitExits_eq_ok hemit
      have htracks : Tracks { v with depositSpkHash := carry, exits := emitted } S :=
        ⟨h.tracks.sorted, h.tracks.latest⟩
      obtain ⟨outputs, hlength, ⟨rest, hrest, hitems⟩, hdeclared, htracks', hexits, hdeposit⟩ :=
        applyResources_success htracks (hdistinct exec hexec) hres
      have hnil : rest = [] := by
        rw [hrest] at hleft
        exact List.isEmpty_iff.mp hleft
      rw [hnil, List.append_nil] at hitems
      refine ⟨_, more, deposit, .success hexec houtput hdeclared hlog hitems hlength, htracks',
        ?_, ?_⟩
      · rw [hexits, hbuf, h.exits, List.flatMap_append]
      · rw [hdeposit]
        exact h.carried.append (Carried.singleton deposit) hcarry

end Vprogs.Lane
