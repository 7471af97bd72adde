import Vprogs.Runtime.Conservation
import Vprogs.Runtime.Witness

/-!
Who may act on a resource. Signers are resolved once, before any action, into
keys filed under resource indices; a lock that unlocks later is one whose keys
are among them, whatever earlier actions did to the resource.
-/
namespace Vprogs.Runtime

open Abi

/-! ### What a signer shows -/

section

variable (P : Primitives) (ctx : SignerResolveContext)

/-- The payload holds a signature by the key over the transaction. -/
def Signed (sigOffset : UInt32) (key : Hash) : Prop :=
  ∃ sig, chunkAt 64 ctx.payloadBytes sigOffset.toNat = some sig ∧
    P.verifySchnorr key sig (computeSigMessage P ctx.currentRestPreimage ctx.payloadPresig) = true

/-- The payload holds a transaction that the input spends, and this is the output. -/
def Witnessed (inputIdx : UInt8) (restPreimageOffset restPreimageLen payloadDigestOffset : UInt32)
    (out : OutputData) : Prop :=
  ∃ rest digest prevTxId outputIdx,
    rangeAt ctx.payloadBytes restPreimageOffset.toNat restPreimageLen.toNat = some rest ∧
      chunkAt 32 ctx.payloadBytes payloadDigestOffset.toNat = some digest ∧
        parseInputOutpointAt ctx.currentRestPreimage (UInt32.ofNat inputIdx.toNat) =
          .ok (prevTxId, outputIdx) ∧
          txIdV1FromDigest P.keyedHash digest rest = prevTxId ∧
            parseOutputAtIndexV1 rest outputIdx = .ok out

def SignerEnum.Shows (key : Hash) : SignerEnum → Prop
  | .schnorrSigPtr sigOffset | .genesisSchnorrSigPtr sigOffset
  | .multisigSchnorrSigPtr _ sigOffset => Signed P ctx sigOffset key
  | .prevTxV1Witness inputIdx rpOff rpLen pdOff
  | .multisigPrevTxV1Witness inputIdx rpOff rpLen pdOff =>
    ∃ out, Witnessed P ctx inputIdx rpOff rpLen pdOff out ∧ Pays out key

/-- The outputs a witness signer points to have script version 0. -/
def SignerEnum.KnownScript : SignerEnum → Prop
  | .schnorrSigPtr _ | .genesisSchnorrSigPtr _ | .multisigSchnorrSigPtr _ _ => True
  | .prevTxV1Witness inputIdx rpOff rpLen pdOff
  | .multisigPrevTxV1Witness inputIdx rpOff rpLen pdOff =>
    ∀ out, Witnessed P ctx inputIdx rpOff rpLen pdOff out → out.spkVersion = 0

variable (signers : List (UInt8 × SignerEnum))

def VerifiedFor (resourceIdx : UInt8) (key : Hash) : Prop :=
  ∃ signer, (resourceIdx, signer) ∈ signers ∧ signer.Shows P ctx key

/-- The transaction satisfies the lock of the resource. -/
def Authorised (resourceIdx : UInt8) : LockEnum → Prop
  | .unlocked => True
  | .schnorr pubkey => VerifiedFor P ctx signers resourceIdx pubkey
  | .multisig threshold pubkeys => ∃ keys : List Hash, keys.Nodup ∧ threshold.toNat ≤ keys.length ∧
      ∀ key ∈ keys, key.val ∈ asChunks pubkeys ∧ VerifiedFor P ctx signers resourceIdx key

end

/-! ### Resolving -/

section

variable {P : Primitives} {ctx : SignerResolveContext}

theorem verifiedKey_eq_ok {pubkey key : Hash} {sigOffset : UInt32} {failure : String}
    (h : verifiedKey P ctx pubkey sigOffset failure = .ok key) :
    key = pubkey ∧ Signed P ctx sigOffset key := by
  simp only [verifiedKey, readSigAtOffset, ok_bind_iff, okOr_eq_ok] at h
  obtain ⟨sig, hsig, hif⟩ := h
  split at hif
  · next hverify =>
    cases hif
    exact ⟨rfl, sig, hsig, hverify⟩
  · cases hif

theorem recoverWitnessPubkey_eq_ok {inputIdx : UInt8} {rpOff rpLen pdOff : UInt32} {key : Hash}
    (h : recoverWitnessPubkey P ctx inputIdx rpOff rpLen pdOff = .ok key) :
    ∃ out, Witnessed P ctx inputIdx rpOff rpLen pdOff out ∧ out.spk = p2pkScript key := by
  simp only [recoverWitnessPubkey, ok_bind_iff, okOr_eq_ok, lift_eq_ok] at h
  obtain ⟨rest, hrest, digest, hdigest, found, hfound, hkey⟩ := h
  subst hkey
  obtain ⟨prevTxId, outputIdx, out, hparse, hid, hout, hspk⟩ :=
    recoverPrevTxV1P2pkPubkey_eq_some.mp hfound
  exact ⟨out, ⟨rest, digest, prevTxId, outputIdx, hrest, hdigest, hparse, hid, hout⟩, hspk⟩

/-- A resolved signer files one key it shows, in one of the two buckets. -/
theorem resolveSigner_eq_ok {auth auth' : AuthContext} {idx : UInt8} {signer : SignerEnum}
    (hknown : signer.KnownScript P ctx) (h : resolveSigner P ctx auth idx signer = .ok auth') :
    ∃ key, signer.Shows P ctx key ∧
      (auth' = addSchnorr auth idx key ∨ auth' = addMultisig auth idx key) := by
  have shown : ∀ {inputIdx : UInt8} {rpOff rpLen pdOff : UInt32} {key : Hash},
      (∀ out, Witnessed P ctx inputIdx rpOff rpLen pdOff out → out.spkVersion = 0) →
        recoverWitnessPubkey P ctx inputIdx rpOff rpLen pdOff = .ok key →
          ∃ out, Witnessed P ctx inputIdx rpOff rpLen pdOff out ∧ Pays out key := by
    intro inputIdx rpOff rpLen pdOff key hversion hrec
    have ⟨out, hout, hspk⟩ := recoverWitnessPubkey_eq_ok hrec
    exact ⟨out, hout, hversion out hout, hspk⟩
  cases signer with
  | schnorrSigPtr sigOffset =>
    simp only [resolveSigner, ok_bind_iff] at h
    have ⟨_, _, key, hkey, hauth⟩ := h
    cases hauth
    exact ⟨key, (verifiedKey_eq_ok hkey).2, .inl rfl⟩
  | genesisSchnorrSigPtr sigOffset =>
    simp only [resolveSigner, ok_bind_iff] at h
    have ⟨_, _, key, hkey, hauth⟩ := h
    cases hauth
    exact ⟨key, (verifiedKey_eq_ok hkey).2, .inl rfl⟩
  | multisigSchnorrSigPtr pubkeyIdx sigOffset =>
    simp only [resolveSigner, ok_bind_iff] at h
    have ⟨_, _, key, hkey, hauth⟩ := h
    cases hauth
    exact ⟨key, (verifiedKey_eq_ok hkey).2, .inr rfl⟩
  | prevTxV1Witness inputIdx rpOff rpLen pdOff =>
    simp only [resolveSigner, ok_bind_iff] at h
    have ⟨key, hkey, hauth⟩ := h
    cases hauth
    exact ⟨key, shown hknown hkey, .inl rfl⟩
  | multisigPrevTxV1Witness inputIdx rpOff rpLen pdOff =>
    simp only [resolveSigner, ok_bind_iff] at h
    have ⟨key, hkey, hauth⟩ := h
    cases hauth
    exact ⟨key, shown hknown hkey, .inr rfl⟩

/-! ### Buckets -/

/-- A bucket in index order whose entries all have a property, none above `bound`. -/
structure Filed {α : Type} (Q : UInt8 → α → Prop) (bound : UInt8) (bucket : List (UInt8 × α)) :
    Prop where
  ordered : bucket.Pairwise fun a b => a.1 ≤ b.1
  all : ∀ entry ∈ bucket, Q entry.1 entry.2
  below : ∀ entry ∈ bucket, entry.1 ≤ bound

theorem Filed.nil {α : Type} {Q : UInt8 → α → Prop} {bound : UInt8} : Filed Q bound [] :=
  ⟨.nil, nofun, nofun⟩

theorem Filed.raise {α : Type} {Q : UInt8 → α → Prop} {low high : UInt8} {bucket : List (UInt8 × α)}
    (h : Filed Q low bucket) (hle : low ≤ high) : Filed Q high bucket :=
  ⟨h.ordered, h.all, fun e he => UInt8.le_trans (h.below e he) hle⟩

theorem Filed.append {α : Type} {Q : UInt8 → α → Prop} {bound : UInt8} {bucket : List (UInt8 × α)}
    (h : Filed Q bound bucket) {value : α} (hvalue : Q bound value) :
    Filed Q bound (bucket ++ [(bound, value)]) where
  ordered := List.pairwise_append.mpr ⟨h.ordered, List.pairwise_singleton _ _, fun a ha b hb => by
    rw [List.mem_singleton] at hb
    rw [hb]
    exact h.below a ha⟩
  all := fun e he => by
    match List.mem_append.mp he with
    | .inl hold => exact h.all e hold
    | .inr hnew => rw [List.mem_singleton.mp hnew]; exact hvalue
  below := fun e he => by
    match List.mem_append.mp he with
    | .inl hold => exact h.below e hold
    | .inr hnew => rw [List.mem_singleton.mp hnew]; exact UInt8.le_refl _

/-- The two searches cut out the entries of one resource. -/
theorem sliceForResource_eq {α : Type} {bucket : List (UInt8 × α)}
    (h : bucket.Pairwise fun a b => a.1 ≤ b.1) (idx : UInt8) :
    sliceForResource bucket idx = .ok (bucket.filter fun e => e.1 == idx) := by
  let upTo := bucket.filter fun e => decide (e.1 ≤ idx)
  have below : ∀ {xs : List (UInt8 × α)}, xs.Pairwise (fun a b => a.1 ≤ b.1) →
      xs.Pairwise fun a b => decide (b.1 < idx) = true → decide (a.1 < idx) = true := fun hxs =>
    hxs.imp fun hle hlt => decide_eq_true (UInt8.lt_of_le_of_lt hle (of_decide_eq_true hlt))
  have hend := slicePartitionPoint_split (h.imp fun hle hle' => decide_eq_true
    (UInt8.le_trans hle (of_decide_eq_true hle')) :
      bucket.Pairwise fun a b => decide (b.1 ≤ idx) = true → decide (a.1 ≤ idx) = true)
  have hstart := slicePartitionPoint_split (below h)
  have hcut := slicePartitionPoint_split (below (h.sublist List.filter_sublist : upTo.Pairwise _))
  -- The first search gives one position in the bucket and in its part up to the index.
  have hsame : slicePartitionPoint (fun e => decide (e.1 < idx)) bucket =
      slicePartitionPoint (fun e => decide (e.1 < idx)) upTo := by
    rw [hstart.1, hcut.1, List.filter_filter]
    congr 2
    funext e
    rw [← Bool.decide_and, decide_eq_decide]
    exact ⟨fun hlt => ⟨hlt, UInt8.le_of_lt hlt⟩, fun hboth => hboth.1⟩
  have hle : slicePartitionPoint (fun e => decide (e.1 < idx)) bucket ≤
      slicePartitionPoint (fun e => decide (e.1 ≤ idx)) bucket := by
    rw [hsame, hcut.1, hend.1]
    exact List.length_filter_le _ _
  simp only [sliceForResource, if_pos hle]
  rw [hend.2.1, hsame, hcut.2.2, List.filter_filter]
  congr 2
  funext e
  rw [Bool.eq_iff_iff, Bool.and_eq_true, Bool.not_eq_true', decide_eq_false_iff_not, UInt8.not_lt,
    decide_eq_true_eq, beq_iff_eq]
  exact ⟨fun hboth => UInt8.le_antisymm hboth.2 hboth.1,
    fun heq => ⟨heq ▸ UInt8.le_refl _, heq ▸ UInt8.le_refl _⟩⟩

theorem sliceForResource_mem {α : Type} {Q : UInt8 → α → Prop} {bound idx : UInt8}
    {bucket slice : List (UInt8 × α)} (h : Filed Q bound bucket)
    (hslice : sliceForResource bucket idx = .ok slice) :
    ∀ entry ∈ slice, entry.1 = idx ∧ Q entry.1 entry.2 := by
  rw [sliceForResource_eq h.ordered] at hslice
  cases hslice
  intro entry hmem
  have ⟨hbucket, hidx⟩ := List.mem_filter.mp hmem
  exact ⟨beq_iff_eq.mp hidx, h.all entry hbucket⟩

theorem Filed.sublist {α : Type} {Q : UInt8 → α → Prop} {bound : UInt8} {part bucket : List (UInt8 × α)}
    (h : Filed Q bound bucket) (hsub : part.Sublist bucket) : Filed Q bound part :=
  ⟨h.ordered.sublist hsub, fun e he => h.all e (hsub.subset he), fun e he => h.below e (hsub.subset he)⟩

/-- A contribution keeps the bucket in order, joined to an entry or as a new one. -/
theorem Filed.appendMultisigContrib {Q : UInt8 → Hash → Prop} {bound : UInt8}
    {bucket : List (UInt8 × List Hash)} (h : Filed (fun i keys => ∀ key ∈ keys, Q i key) bound bucket)
    {key : Hash} (hkey : Q bound key) :
    Filed (fun i keys => ∀ key ∈ keys, Q i key) bound
      (Runtime.appendMultisigContrib bucket bound key) := by
  unfold Runtime.appendMultisigContrib
  split
  · next lastIdx keys hlast =>
    have hmem : (lastIdx, keys) ∈ bucket := List.mem_of_getLast? hlast
    split
    · next heq =>
      subst heq
      refine (h.sublist (List.dropLast_sublist _)).append fun k hk => ?_
      match List.mem_append.mp hk with
      | .inl hold => exact h.all _ hmem k hold
      | .inr hnew => exact List.mem_singleton.mp hnew ▸ hkey
    · exact h.append (List.forall_mem_singleton.mpr hkey)
  · exact Filed.nil.append (List.forall_mem_singleton.mpr hkey)

/-- Every filed key is verified for the resource it is filed under. -/
structure AuthSound (P : Primitives) (ctx : SignerResolveContext)
    (signers : List (UInt8 × SignerEnum)) (bound : UInt8) (auth : AuthContext) : Prop where
  schnorr : Filed (VerifiedFor P ctx signers) bound auth.schnorr
  multisig : Filed (fun idx keys => ∀ key ∈ keys, VerifiedFor P ctx signers idx key) bound
    auth.multisig

theorem AuthSound.raise {signers : List (UInt8 × SignerEnum)} {low high : UInt8} {auth : AuthContext}
    (h : AuthSound P ctx signers low auth) (hle : low ≤ high) : AuthSound P ctx signers high auth :=
  ⟨h.schnorr.raise hle, h.multisig.raise hle⟩

theorem AuthSound.step {signers : List (UInt8 × SignerEnum)} {idx : UInt8} {signer : SignerEnum}
    {auth auth' : AuthContext} (h : AuthSound P ctx signers idx auth) (hmem : (idx, signer) ∈ signers)
    (hknown : signer.KnownScript P ctx) (hok : resolveSigner P ctx auth idx signer = .ok auth') :
    AuthSound P ctx signers idx auth' := by
  have ⟨key, hshows, hauth⟩ := resolveSigner_eq_ok hknown hok
  have hverified : VerifiedFor P ctx signers idx key := ⟨signer, hmem, hshows⟩
  match hauth with
  | .inl heq =>
    subst heq
    exact ⟨h.schnorr.append hverified, h.multisig⟩
  | .inr heq =>
    subst heq
    exact ⟨h.schnorr, h.multisig.appendMultisigContrib hverified⟩

/-- Resolving entries in index order files only verified keys. -/
theorem AuthSound.run {signers entries : List (UInt8 × SignerEnum)} {bound : UInt8}
    {auth auth' : AuthContext} (h : AuthSound P ctx signers bound auth)
    (hordered : entries.Pairwise fun a b => a.1 ≤ b.1) (hbound : ∀ e ∈ entries, bound ≤ e.1)
    (hmem : ∀ e ∈ entries, e ∈ signers) (hknown : ∀ e ∈ entries, e.2.KnownScript P ctx)
    (hok : resolveSigners P ctx auth entries = .ok auth') : ∃ top, AuthSound P ctx signers top auth' := by
  induction entries generalizing auth bound with
  | nil =>
    cases hok
    exact ⟨bound, h⟩
  | cons entry rest ih =>
    have ⟨mid, hmid, hrest⟩ := ok_bind_iff.mp hok
    have ⟨hfirst, hothers⟩ := List.pairwise_cons.mp hordered
    rw [List.forall_mem_cons] at hbound hmem hknown
    have hstep := (h.raise hbound.1).step hmem.1 hknown.1 hmid
    exact ih hstep hothers hfirst hmem.2 hknown.2 hrest

end

/-! ### Unlocking -/

theorem advance_eq {lockPk : Bytes} {contrib rest : List Bytes} {hit : Bool}
    (h : advance lockPk contrib = (hit, rest)) :
    if hit then (lockPk :: rest).Sublist contrib else rest.Sublist contrib := by
  induction contrib with
  | nil =>
    cases h
    exact List.Sublist.refl _
  | cons c cs ih =>
    rw [advance] at h
    split at h
    · have hih := ih h
      cases hit with
      | true => exact hih.cons c
      | false => exact hih.cons c
    · split at h
      · next heq =>
        cases h
        rw [heq]
        exact List.Sublist.refl _
      · cases h
        exact List.Sublist.refl _

/-- The walk counts keys of the lock that are contributed, each once. -/
theorem mergeWalk_eq_true {threshold : Nat} {pks contrib : List Bytes} {matched : Nat}
    (h : mergeWalk threshold pks contrib matched = true) :
    ∃ hits : List Bytes, hits.Sublist contrib ∧ hits ⊆ pks ∧ threshold ≤ matched + hits.length := by
  induction pks generalizing contrib matched with
  | nil =>
    exact ⟨[], List.nil_sublist _, List.nil_subset _, of_decide_eq_true h⟩
  | cons pk pks ih =>
    rw [mergeWalk] at h
    match hadv : advance pk contrib with
    | (hit, rest) =>
      have hsub := advance_eq hadv
      rw [hadv] at h
      -- The hit of this key, if there is one, in front of those of the others.
      have ⟨hits, hsublist, hsubset, hcount⟩ : ∃ hits : List Bytes, hits.Sublist rest ∧
          hits ⊆ pks ∧ threshold ≤ matched + hit.toNat + hits.length := by
        dsimp only at h
        split at h
        · next hle => exact ⟨[], List.nil_sublist _, List.nil_subset _, hle⟩
        · exact ih h
      cases hit with
      | true =>
        refine ⟨pk :: hits, (hsublist.cons_cons pk).trans hsub, ?_, ?_⟩
        · exact List.cons_subset_cons pk hsubset
        · rw [List.length_cons]
          simp only [Bool.toNat_true] at hcount
          omega
      | false =>
        exact ⟨hits, hsublist.trans hsub, List.subset_cons_of_subset pk hsubset, hcount⟩

theorem pairwise_of_isStrictlyAscending {keys : List Bytes} (h : isStrictlyAscending keys = true) :
    keys.Pairwise (· < ·) := by
  induction keys with
  | nil => exact .nil
  | cons a rest ih =>
    cases rest with
    | nil => exact List.pairwise_singleton _ _
    | cons b rest =>
      rw [isStrictlyAscending, Bool.and_eq_true, decide_eq_true_eq] at h
      have hrest := ih h.2
      refine List.pairwise_cons.mpr ⟨fun c hc => ?_, hrest⟩
      match List.mem_cons.mp hc with
      | .inl heq => exact heq ▸ h.1
      | .inr hmem => exact List.lt_trans h.1 ((List.pairwise_cons.mp hrest).1 c hmem)

theorem nodup_of_isStrictlyAscending {keys : List Bytes} (h : isStrictlyAscending keys = true) :
    keys.Nodup := by
  refine (pairwise_of_isStrictlyAscending h).imp ?_
  intro a b hlt heq
  subst heq
  exact List.lt_irrefl a hlt

section

variable {P : Primitives} {ctx : SignerResolveContext} {signers : List (UInt8 × SignerEnum)}

/-- A lock that unlocks is satisfied by verified keys of its resource. -/
theorem unlock_sound {lock : LockEnum} {idx bound : UInt8} {auth : AuthContext}
    (hsound : AuthSound P ctx signers bound auth) (h : lock.unlock idx auth = .ok true) :
    Authorised P ctx signers idx lock := by
  cases lock with
  | unlocked => trivial
  | schnorr pubkey =>
    have ⟨slice, hslice, h⟩ := ok_bind_iff.mp h
    have hmem := sliceForResource_mem hsound.schnorr hslice
    split at h
    · next i key =>
      have ⟨hidx, hverified⟩ := hmem (i, key) List.mem_cons_self
      have hkey : key = pubkey := beq_iff_eq.mp (Except.ok.inj h)
      rw [hidx, hkey] at hverified
      exact hverified
    · cases h
  | multisig threshold pubkeys =>
    have ⟨slice, hslice, h⟩ := ok_bind_iff.mp h
    have hmem := sliceForResource_mem hsound.multisig hslice
    split at h
    · next i keys =>
      have ⟨hidx, hverified⟩ := hmem (i, keys) List.mem_cons_self
      rw [hidx] at hverified
      have hboth := Bool.and_eq_true_iff.mp (Except.ok.inj h)
      have ⟨hits, hsub, hlisted, hcount⟩ := mergeWalk_eq_true hboth.2
      have ⟨found, hfound, heq⟩ := List.sublist_map_iff.mp hsub
      subst heq
      have hnodup := (nodup_of_isStrictlyAscending hboth.1).sublist hsub
      refine ⟨found, hnodup.of_map _, ?_, fun key hkey => ⟨?_, ?_⟩⟩
      · rw [List.length_map] at hcount
        omega
      · exact hlisted (List.mem_map_of_mem hkey)
      · exact hverified key (hfound.subset hkey)
    · cases h

/-! ### What an action changes -/

/-- The lock stored in the resource. -/
def StoredLock (r : Resource) (lock : LockEnum) : Prop :=
  ∃ raw, (viewUser r = some raw ∨ viewConfig r = some raw) ∧ raw.lock = .ok lock

/-- A user keeps its lock and at least its balance, a config all of its bytes. -/
structure Kept (r r' : Resource) : Prop where
  user : ∀ raw, viewUser r = some raw → ∃ raw', viewUser r' = some raw' ∧
    raw.amount ≤ raw'.amount ∧ raw'.lockTag = raw.lockTag ∧ raw'.lockBody = raw.lockBody
  config : ∀ raw, viewConfig r = some raw → r'.data = r.data

/-- The resource whose lock the action has to satisfy. -/
def ActionBody.guarded : ActionBody → Option UInt8
  | .update idx _ _ _ | .updateUserLock idx _ | .withdraw idx _ _ | .transfer idx _ _ _ => some idx
  | .init _ _ _ _ | .deposit _ _ _ => none

/-- A slot is only changed against its owner with the lock it had, and only
becomes the config with the genesis key. -/
structure Guarded (P : Primitives) (ctx : SignerResolveContext)
    (signers : List (UInt8 × SignerEnum)) (action : ActionBody) (slot : Nat) (r r' : Resource) :
    Prop where
  lock : (¬ Kept r r' ∨ ∃ idx, action.guarded = some idx ∧ idx.toNat = slot) →
    ∃ idx lock, idx.toNat = slot ∧ StoredLock r lock ∧ Authorised P ctx signers idx lock
  genesis : viewConfig r = none → viewConfig r' ≠ none →
    ∃ idx, idx.toNat = slot ∧ VerifiedFor P ctx signers idx GENESIS_SCHNORR_BYTES

theorem Kept.refl (r : Resource) : Kept r r where
  user := fun raw h => ⟨raw, h, UInt64.le_refl _, rfl, rfl⟩
  config := fun _ _ => rfl

theorem Kept.of_empty {r : Resource} (h : r.data = []) (r' : Resource) : Kept r r' where
  user := fun raw hraw => by rw [viewUser_nil h] at hraw; cases hraw
  config := fun raw hraw => by rw [viewConfig_nil h] at hraw; cases hraw

variable {action : ActionBody}

theorem Guarded.unchanged {slot : Nat} (r : Resource)
    (h : ∀ idx, action.guarded = some idx → idx.toNat ≠ slot) : Guarded P ctx signers action slot r r where
  lock := fun hor => by
    match hor with
    | .inl hkept => exact absurd (Kept.refl r) hkept
    | .inr ⟨idx, hidx, heq⟩ => exact absurd heq (h idx hidx)
  genesis := fun hnone hsome => absurd hnone hsome

theorem Guarded.unlocked {idx : UInt8} {lock : LockEnum} {r r' : Resource} (hlock : StoredLock r lock)
    (hauth : Authorised P ctx signers idx lock) (hconfig : viewConfig r = none → viewConfig r' = none) :
    Guarded P ctx signers action idx.toNat r r' where
  lock := fun _ => ⟨idx, lock, rfl, hlock, hauth⟩
  genesis := fun hnone hsome => absurd (hconfig hnone) hsome

theorem Guarded.credited {amount : UInt64} {destInit : Option LockEnum} {slot : Nat}
    {dst dst' : Resource} {state : Lifecycle} (h : Credited P amount destInit dst state dst')
    (hguard : ∀ idx, action.guarded = some idx → idx.toNat ≠ slot) :
    Guarded P ctx signers action slot dst dst' := by
  have hkept : Kept dst dst' ∧ viewConfig dst' = none := by
    cases h with
    | created lock hlock hid hmin hempty =>
      exact ⟨Kept.of_empty hempty _, viewConfig_of_user rfl rfl⟩
    | credited raw hview hsum =>
      have hkind := (viewUser_iff.mp hview).2.1
      refine ⟨⟨fun found hfound => ?_, fun found hfound => ?_⟩, viewConfig_setAmount hview _⟩
      · rw [hview] at hfound
        cases hfound
        refine ⟨_, viewUser_setAmount hview _, ?_, rfl, rfl⟩
        change raw.amount.toNat ≤ (raw.amount + amount).toNat
        rw [UInt64.toNat_add, Nat.mod_eq_of_lt hsum]
        omega
      · rw [viewConfig_of_user (viewUser_iff.mp hview).1 hkind] at hfound
        cases hfound
  constructor
  · intro hor
    match hor with
    | .inl hnot => exact absurd hkept.1 hnot
    | .inr ⟨idx, hidx, heq⟩ => exact absurd heq (hguard idx hidx)
  · intro _ hsome
    exact absurd hkept.2 hsome

/-- A write to one slot leaves the others as they were. -/
theorem guarded_set {resources : List Resource} {idx : Nat} {old new : Resource}
    (hold : resources[idx]? = some old) (hslot : Guarded P ctx signers action idx old new)
    (hguard : ∀ i, action.guarded = some i → i.toNat = idx) {slot : Nat} {r r' : Resource}
    (hr : resources[slot]? = some r) (hr' : (resources.set idx new)[slot]? = some r') :
    Guarded P ctx signers action slot r r' := by
  by_cases heq : slot = idx
  · subst heq
    rw [hold] at hr
    cases hr
    rw [List.getElem?_set_self' , hold] at hr'
    cases hr'
    exact hslot
  · rw [List.getElem?_set_ne (Ne.symm heq), hr] at hr'
    cases hr'
    exact .unchanged r fun i hi he => heq (he.symm.trans (hguard i hi))

/-- Every slot is guarded across the action. -/
def GuardedAction (P : Primitives) (ctx : SignerResolveContext)
    (signers : List (UInt8 × SignerEnum)) (action : ActionBody) (cx cx' : ApplyContext) : Prop :=
  ∀ (slot : Nat) (r r' : Resource), cx.resources[slot]? = some r → cx'.resources[slot]? = some r' →
    Guarded P ctx signers action slot r r'

theorem applyAction_guarded {auth : AuthContext} {bound : UInt8} {cx cx' : ApplyContext}
    (hsound : AuthSound P ctx signers bound auth) (hslots : EmptySlots cx)
    (h : applyAction P auth action cx = .ok cx') : GuardedAction P ctx signers action cx cx' := by
  intro slot r r' hr hr'
  cases action with
  | update idx min covenantId lock =>
    have ⟨target, cur, curLock, htarget, _, _, hcur, _, hlock, hunlock, hcx⟩ := applyUpdate_eq_ok h
    subst hcx
    have hview := viewConfig_of_config hcur
    refine guarded_set htarget (.unlocked ⟨cur, .inr hview, hlock⟩ (unlock_sound hsound hunlock) ?_)
      (fun i hi => by cases hi; rfl) hr hr'
    intro hnone
    rw [hview] at hnone
    cases hnone
  | init idx min covenantId lock =>
    have ⟨target, htarget, _, hnew, hunlock, hcx⟩ := applyInit_eq_ok h
    subst hcx
    have hempty := hslots _ _ hnew htarget
    refine guarded_set htarget ⟨fun hor => ?_, fun _ _ => ?_⟩ (fun i hi => by cases hi) hr hr'
    · match hor with
      | .inl hnot => exact absurd (Kept.of_empty hempty _) hnot
      | .inr ⟨_, hi, _⟩ => cases hi
    · exact ⟨idx, rfl, unlock_sound hsound hunlock⟩
  | transfer src dst amount destInit =>
    have ⟨hne, state, srcR, dstR, view, lock, dstR', hstate, hsrc, hdst, hview, hlock, hunlock, _,
      hcredit, hcx⟩ := applyTransfer_eq_ok h
    subst hcx
    have hidx : src.toNat ≠ dst.toNat := fun he => hne (UInt8.toNat_inj.mp he)
    let debited := srcR.setData { view with amount := view.amount - amount }.toBytes
    change ((cx.resources.set src.toNat debited).set dst.toNat dstR')[slot]? = some r' at hr'
    by_cases heq : slot = dst.toNat
    · subst heq
      rw [hdst] at hr
      cases hr
      rw [List.getElem?_set_self', List.getElem?_set_ne hidx, hdst] at hr'
      cases hr'
      exact .credited hcredit fun i hi => by cases hi; exact hidx
    · rw [List.getElem?_set_ne (Ne.symm heq)] at hr'
      refine guarded_set hsrc (.unlocked ⟨view, .inl hview, hlock⟩ (unlock_sound hsound hunlock) ?_)
        (fun i hi => by cases hi; rfl) hr hr'
      intro _
      exact viewConfig_setAmount hview _
  | updateUserLock idx lock =>
    have ⟨target, view, old, htarget, hview, hlock, hunlock, hcx⟩ := applyUpdateUserLock_eq_ok h
    subst hcx
    exact guarded_set htarget (.unlocked ⟨view, .inl hview, hlock⟩ (unlock_sound hsound hunlock)
      fun _ => viewConfig_of_user rfl rfl) (fun i hi => by cases hi; rfl) hr hr'
  | deposit idx outputIdx lock =>
    have ⟨_, _, _, _, target, target', _, _, _, _, _, _, htarget, _, hcredit, _, hcx⟩ :=
      applyDeposit_eq_ok h
    subst hcx
    exact guarded_set htarget (.credited hcredit fun i hi => by cases hi)
      (fun i hi => by cases hi) hr hr'
  | withdraw idx amount dest =>
    have ⟨_, target, view, lock, _, htarget, hview, hlock, hunlock, _, _, hcx⟩ :=
      applyWithdraw_eq_ok h
    subst hcx
    exact guarded_set htarget (.unlocked ⟨view, .inl hview, hlock⟩ (unlock_sound hsound hunlock)
      fun _ => viewConfig_setAmount hview _) (fun i hi => by cases hi; rfl) hr hr'

end

/-! ### A run -/

theorem decodeSigners_ordered {n count : Nat} {prev : Option UInt8} {buf rest : Bytes}
    {entries : List (UInt8 × SignerEnum)} (h : (decodeSigners n prev count).run buf = .ok (entries, rest))
    : entries.Pairwise (fun a b => a.1 ≤ b.1) ∧ ∀ e ∈ entries, ∀ p ∈ prev, p ≤ e.1 := by
  induction count generalizing prev buf entries with
  | zero =>
    cases h
    exact ⟨.nil, nofun⟩
  | succ count ih =>
    have ⟨entry, _, _, h⟩ := Reader.run_bind_eq_ok.mp h
    split at h
    · cases h
    · split at h
      · cases h
      · next hprev =>
        have ⟨others, _, hothers, hcons⟩ := Reader.run_bind_eq_ok.mp h
        cases hcons
        have ⟨hordered, habove⟩ := ih hothers
        have hfirst : ∀ p ∈ prev, p ≤ entry.1 := by
          intro p hp
          subst hp
          exact UInt8.not_lt.mp fun hlt => hprev (decide_eq_true hlt)
        refine ⟨List.pairwise_cons.mpr ⟨fun e he => habove e he _ rfl, hordered⟩, ?_⟩
        rw [List.forall_mem_cons]
        refine ⟨hfirst, fun e he p hp => ?_⟩
        exact UInt8.le_trans (hfirst p hp) (habove e he _ rfl)

theorem decodeIx_ordered {orig : Bytes} {n : Nat} {ix : DecodedIx} (h : decodeIx orig n = .ok ix) :
    ix.signers.Pairwise fun a b => a.1 ≤ b.1 := by
  obtain ⟨rest, hrun, _⟩ := decodeIx_eq_ok.mp h
  simp only [readIx, Reader.run_bind_eq_ok] at hrun
  obtain ⟨_, _, _, _, _, hsigners, _, _, _, _, _, _, hpair⟩ := hrun
  cases hpair
  exact (decodeSigners_ordered hsigners).1

/-- What the signers of a transaction are resolved against: its state before any
action, and the payload up to the end of the actions as the signed part. -/
def resolveContext (tx : Transaction) (resources : List Resource) (ix : DecodedIx) :
    SignerResolveContext :=
  ⟨tx.payload.bytes, tx.restPreimage,
    tx.payload.bytes.take (tx.payload.bytes.length - tx.payload.ixData.length + ix.endOfActionsInIx),
    resources⟩

theorem run_eq_ok_signers {P : Primitives} {tx : Transaction} {resources : List Resource}
    {exits : ExitSink} {deposit : DepositSink} {cx : ApplyContext} {ix : DecodedIx}
    (hix : decodeIx tx.payload.ixData resources.length = .ok ix)
    (h : run P tx resources exits deposit = .ok cx) :
    ∃ auth, resolveSigners P (resolveContext tx resources ix) {} ix.signers = .ok auth ∧
      applyActions P auth (ApplyContext.new tx resources exits deposit) ix.actions = .ok cx := by
  simp only [run, ok_bind_iff, lift_eq_ok] at h
  have ⟨found, hfound, _, _, _, _, auth, hauth, happly⟩ := h
  rw [hix] at hfound
  cases hfound
  exact ⟨auth, hauth, happly⟩

/-- In a successful run whose witnesses point to outputs of script version 0,
every action is guarded by the locks in force when it runs. -/
theorem run_authorised (P : Primitives) {buf rest : Bytes} {inputs : Inputs} {exec : ExecutionInput}
    {ix : DecodedIx} {cx : ApplyContext} (hdecode : Inputs.decode.run buf = .ok (inputs, rest))
    (hexec : inputs.executionInput = some exec)
    (hix : decodeIx exec.tx.payload.ixData exec.resources.length = .ok ix)
    (hknown : ∀ entry ∈ ix.signers,
      entry.2.KnownScript P (resolveContext exec.tx exec.resources ix))
    (hrun : run P exec.tx exec.resources {} {} = .ok cx) :
    ∃ auth, ∀ pre action post, ix.actions = pre ++ action :: post → ∃ before after,
      applyActions P auth (ApplyContext.new exec.tx exec.resources {} {}) pre = .ok before ∧
        applyAction P auth action before = .ok after ∧ applyActions P auth after post = .ok cx ∧
          GuardedAction P (resolveContext exec.tx exec.resources ix) ix.signers action before after := by
  have ⟨auth, hauth, happly⟩ := run_eq_ok_signers hix hrun
  have hempty : AuthSound P (resolveContext exec.tx exec.resources ix) ix.signers 0 {} :=
    ⟨.nil, .nil⟩
  have ⟨bound, hsound⟩ := hempty.run (decodeIx_ordered hix) (fun _ _ => UInt8.zero_le)
    (fun _ he => he) hknown hauth
  refine ⟨auth, fun pre action post hsplit => ?_⟩
  rw [hsplit] at happly
  have ⟨before, hbefore, hrest⟩ := applyActions_append.mp happly
  have ⟨after, hafter, hpost⟩ := ok_bind_iff.mp hrest
  have hvalid : ∀ a ∈ pre, a.Valid := by
    intro a ha
    exact decodeIx_valid hix a (hsplit ▸ List.mem_append_left _ ha)
  have hnew := (Inputs.decode_spec hdecode).isNew exec hexec
  have hslots := ((new_balanced exec.tx hnew).run hvalid hbefore).slots
  exact ⟨before, after, hbefore, hafter, hpost, applyAction_guarded hsound hslots hafter⟩

namespace Sample

/-- The first user, locked by the zero key, pays 4 to the second; the signer is a
witness for the first input, placed after the instructions. -/
def witnessPayload (spkVersion : UInt16) : Bytes :=
  encodeMany [⟨resourceId 1, .write⟩, ⟨resourceId 2, .write⟩] AccessMetadata.encode ++
    (leBytes 4 1 ++ ([0, 0x02, 0] ++ (leBytes 4 105 ++ (leBytes 4 167 ++ (leBytes 4 272 ++
      (leBytes 4 1 ++ ([0x03, 0, 1] ++ (leBytes 8 4 ++ ([0] ++
        ((fundingTx spkVersion).restPreimage ++ zeroHash.val))))))))))

def witnessBuffer (spkVersion : UInt16) : Bytes :=
  leBytes 2 1 ++ (zeroHash.val ++ (leBytes 4 0 ++ (zeroHash.val ++
    (Transaction.encode (witnessPayload spkVersion) spendingTx.restPreimage ++
      (Resource.encode 0 (userBytes 9 zeroHash (.schnorr zeroHash)) ++
        Resource.encode 1 (userBytes 1 zeroHash .unlocked))))))

def witnessInputs (spkVersion : UInt16) : Inputs :=
  match Inputs.decode.run (witnessBuffer spkVersion) with
  | .ok (inputs, _) => inputs
  | .error _ => ⟨0, zeroHash, 0, none⟩

def witnessExec (spkVersion : UInt16) : ExecutionInput :=
  match (witnessInputs spkVersion).executionInput with
  | some exec => exec
  | none => ⟨zeroHash, ⟨⟨[], [], []⟩, []⟩, []⟩

def witnessIx (spkVersion : UInt16) : DecodedIx :=
  match decodeIx (witnessExec spkVersion).tx.payload.ixData 2 with
  | .ok ix => ix
  | .error _ => ⟨[], [], 0⟩

def witnessContext (spkVersion : UInt16) : SignerResolveContext :=
  resolveContext (witnessExec spkVersion).tx (witnessExec spkVersion).resources (witnessIx spkVersion)

theorem decodeIx_witnessExec (spkVersion : UInt16)
    (h : (decodeIx (witnessExec spkVersion).tx.payload.ixData 2).toBool = true) :
    decodeIx (witnessExec spkVersion).tx.payload.ixData 2 = .ok (witnessIx spkVersion) := by
  unfold witnessIx
  split
  · next hix => exact hix
  · next hix =>
    rw [hix] at h
    cases h

/-- The only output the signer can point to is the funding output. -/
theorem witnessed_output {spkVersion : UInt16} {out : OutputData}
    (hrange : rangeAt (witnessContext spkVersion).payloadBytes 105 167 =
      some (fundingTx spkVersion).restPreimage)
    (hpoint : parseInputOutpointAt (witnessContext spkVersion).currentRestPreimage 0 =
      .ok (oneHash, 0))
    (h : Witnessed (fundingPrimitives spkVersion) (witnessContext spkVersion) 0 105 167 272 out) :
    out.spkVersion = spkVersion := by
  have ⟨rest, _, _, outputIdx, hrest, _, hparse, _, hout⟩ := h
  have hrest' : rangeAt (witnessContext spkVersion).payloadBytes 105 167 = some rest := hrest
  rw [hrange] at hrest'
  cases hrest'
  have hparse' : parseInputOutpointAt (witnessContext spkVersion).currentRestPreimage 0 =
      .ok (_, outputIdx) := hparse
  rw [hpoint] at hparse'
  cases hparse'
  rw [parseOutputAtIndexV1_of_output (fits_fundingTx spkVersion) rfl rfl] at hout
  cases hout
  rfl

theorem witnessExec_authorised : ∃ cx auth before after,
    run (fundingPrimitives 0) (witnessExec 0).tx (witnessExec 0).resources {} {} = .ok cx ∧
      applyAction (fundingPrimitives 0) auth (.transfer 0 1 4 none) before = .ok after ∧
        GuardedAction (fundingPrimitives 0) (witnessContext 0) (witnessIx 0).signers
          (.transfer 0 1 4 none) before after := by
  have hdecode : Inputs.decode.run (witnessBuffer 0) = .ok (witnessInputs 0, []) := by decide +kernel
  have hexec : (witnessInputs 0).executionInput = some (witnessExec 0) := by decide +kernel
  have hlen : (witnessExec 0).resources.length = 2 := by decide +kernel
  have hok : (run (fundingPrimitives 0) (witnessExec 0).tx (witnessExec 0).resources {} {}).toBool =
      true := by decide +kernel
  have hactions : (witnessIx 0).actions = [.transfer 0 1 4 none] := by decide +kernel
  have hsigners : (witnessIx 0).signers = [(0, .prevTxV1Witness 0 105 167 272)] := by decide +kernel
  have hrange : rangeAt (witnessContext 0).payloadBytes 105 167 =
      some (fundingTx 0).restPreimage := by decide +kernel
  have hpoint : parseInputOutpointAt (witnessContext 0).currentRestPreimage 0 =
      .ok (oneHash, 0) := by decide +kernel
  have hix := decodeIx_witnessExec 0 (by decide +kernel)
  rw [← hlen] at hix
  have hknown : ∀ entry ∈ (witnessIx 0).signers,
      entry.2.KnownScript (fundingPrimitives 0) (witnessContext 0) := by
    rw [hsigners]
    exact List.forall_mem_singleton.mpr fun out hout => witnessed_output hrange hpoint hout
  match hrun : run (fundingPrimitives 0) (witnessExec 0).tx (witnessExec 0).resources {} {} with
  | .error e => rw [hrun] at hok; cases hok
  | .ok cx =>
    have ⟨auth, hall⟩ := run_authorised (fundingPrimitives 0) hdecode hexec hix hknown hrun
    have ⟨before, after, _, hafter, _, hguarded⟩ := hall [] (.transfer 0 1 4 none) [] hactions
    exact ⟨cx, auth, before, after, rfl, hafter, hguarded⟩

/-- The balance behind the zero key is spent with an output of script version 1,
which pays nobody. -/
theorem unknownVersion_spends :
    (run (fundingPrimitives 1) (witnessExec 1).tx (witnessExec 1).resources {} {}).map
        (fun cx => cx.resources.map userBalance) = .ok [5, 5] ∧
      (witnessExec 1).resources.map userBalance = [9, 1] ∧
        (witnessIx 1).actions = [.transfer 0 1 4 none] ∧
          (∃ r, (witnessExec 1).resources[0]? = some r ∧ StoredLock r (.schnorr zeroHash)) ∧
            ¬ Authorised (fundingPrimitives 1) (witnessContext 1) (witnessIx 1).signers 0
              (.schnorr zeroHash) := by
  refine ⟨by decide +kernel, by decide +kernel, by decide +kernel, ?_, ?_⟩
  · have hdata : (witnessExec 1).resources[0]?.map Resource.data =
        some (userBytes 9 zeroHash (.schnorr zeroHash)) := by decide +kernel
    have ⟨r, hr, hbytes⟩ := Option.map_eq_some_iff.mp hdata
    exact ⟨r, hr, _, .inl (viewUser_iff.mpr ⟨hbytes, rfl, rfl⟩), rfl⟩
  · intro ⟨signer, hmem, hshows⟩
    have hsigners : (witnessIx 1).signers = [(0, .prevTxV1Witness 0 105 167 272)] := by
      decide +kernel
    rw [hsigners, List.mem_singleton] at hmem
    cases hmem
    have ⟨out, hout, hpays⟩ := hshows
    have hversion := witnessed_output (by decide +kernel) (by decide +kernel) hout
    rw [hpays.1] at hversion
    exact absurd hversion (by decide)

end Sample

end Vprogs.Runtime
