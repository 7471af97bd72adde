import Vprogs.Runtime.Authorization

/-!
A multisig lock as a threshold predicate. Contributions are gathered in the bucket's last
entry only; since signers come in resource order that entry holds all contributions of
its resource, and the merge walk counts the lock's keys among them.
-/
namespace Vprogs.Runtime

open Abi

/-! ### Contributions -/

section

variable (P : Primitives) (ctx : SignerResolveContext)

/-- The key a multisig signer contributes to its resource, if it resolves. -/
def SignerEnum.contribution (resourceIdx : UInt8) : SignerEnum → Option Hash
  | .multisigSchnorrSigPtr pubkeyIdx sigOffset => (do
      let pubkey ← readMultisigLockPubkeyAt ctx resourceIdx pubkeyIdx
      verifiedKey P ctx pubkey sigOffset "signer.multisig_schnorr: invalid signature").toOption
  | .multisigPrevTxV1Witness inputIdx rpOff rpLen pdOff =>
    (recoverWitnessPubkey P ctx inputIdx rpOff rpLen pdOff).toOption
  | .schnorrSigPtr _ | .genesisSchnorrSigPtr _ | .prevTxV1Witness _ _ _ _ => none

/-- The keys contributed to one resource, in wire order. -/
def contributions (signers : List (UInt8 × SignerEnum)) (resourceIdx : UInt8) : List Hash :=
  (signers.filter fun e => e.1 == resourceIdx).filterMap fun e => e.2.contribution P ctx e.1

end

section

variable {P : Primitives} {ctx : SignerResolveContext}

/-- A resolved signer changes the multisig bucket by its contribution alone. -/
theorem multisig_of_resolveSigner {auth auth' : AuthContext} {idx : UInt8} {signer : SignerEnum}
    (h : resolveSigner P ctx auth idx signer = .ok auth') :
    auth'.multisig = match signer.contribution P ctx idx with
      | some key => appendMultisigContrib auth.multisig idx key
      | none => auth.multisig := by
  cases signer with
  | schnorrSigPtr sigOffset =>
    have ⟨_, _, h⟩ := ok_bind_iff.mp h
    have ⟨_, _, h⟩ := ok_bind_iff.mp h
    cases h
    rfl
  | genesisSchnorrSigPtr sigOffset =>
    have ⟨_, _, h⟩ := ok_bind_iff.mp h
    have ⟨_, _, h⟩ := ok_bind_iff.mp h
    cases h
    rfl
  | prevTxV1Witness inputIdx rpOff rpLen pdOff =>
    have ⟨_, _, h⟩ := ok_bind_iff.mp h
    cases h
    rfl
  | multisigSchnorrSigPtr pubkeyIdx sigOffset =>
    have ⟨pubkey, hpubkey, h⟩ := ok_bind_iff.mp h
    have ⟨key, hkey, h⟩ := ok_bind_iff.mp h
    cases h
    have hresolved : SignerEnum.contribution P ctx idx (.multisigSchnorrSigPtr pubkeyIdx sigOffset) =
        some key :=
      toOption_eq_some.mpr (ok_bind_iff.mpr ⟨pubkey, hpubkey, hkey⟩)
    rw [hresolved]
    rfl
  | multisigPrevTxV1Witness inputIdx rpOff rpLen pdOff =>
    have ⟨key, hkey, h⟩ := ok_bind_iff.mp h
    cases h
    have hresolved :
        SignerEnum.contribution P ctx idx (.multisigPrevTxV1Witness inputIdx rpOff rpLen pdOff) =
          some key :=
      toOption_eq_some.mpr hkey
    rw [hresolved]
    rfl

/-! ### The bucket -/

/-- What the bucket holds for a resource with these contributions. -/
def gathered (resourceIdx : UInt8) : List Hash → List (UInt8 × List Hash)
  | [] => []
  | keys => [(resourceIdx, keys)]

theorem gathered_append (idx : UInt8) (keys : List Hash) (key : Hash) :
    gathered idx (keys ++ [key]) = [(idx, keys ++ [key])] := by
  cases keys <;> rfl

theorem eq_nil_of_gathered {idx : UInt8} {keys : List Hash} (h : gathered idx keys = []) : keys = [] := by
  cases keys with
  | nil => rfl
  | cons key keys => cases h

theorem eq_of_gathered {idx : UInt8} {keys keys' : List Hash}
    (h : gathered idx keys = [(idx, keys')]) : keys = keys' := by
  cases keys with
  | nil => cases h
  | cons key keys =>
    cases h
    rfl

theorem filter_eq_nil_of_below {bucket : List (UInt8 × List Hash)} {idx : UInt8}
    (h : ∀ e ∈ bucket, e.1 < idx) : bucket.filter (fun e => e.1 == idx) = [] := by
  refine List.filter_eq_nil_iff.mpr fun e he hmatch => ?_
  have hlt := h e he
  rw [beq_iff_eq.mp hmatch] at hlt
  exact UInt8.lt_irrefl _ hlt

/-- The bucket of the given contributions: one entry for each resource that has some, in
resource order. -/
structure Gathered (keysOf : UInt8 → List Hash) (bound : UInt8) (bucket : List (UInt8 × List Hash)) :
    Prop where
  ordered : bucket.Pairwise fun a b => a.1 < b.1
  below : ∀ entry ∈ bucket, entry.1 ≤ bound
  entries : ∀ idx, bucket.filter (fun e => e.1 == idx) = gathered idx (keysOf idx)

namespace Gathered

variable {keysOf keysOf' : UInt8 → List Hash} {low bound : UInt8} {bucket : List (UInt8 × List Hash)}

theorem nil : Gathered (fun _ => []) bound [] := ⟨.nil, nofun, fun _ => rfl⟩

theorem raise (h : Gathered keysOf low bucket) (hle : low ≤ bound) : Gathered keysOf bound bucket :=
  ⟨h.ordered, fun e he => UInt8.le_trans (h.below e he) hle, h.entries⟩

theorem congr (h : Gathered keysOf bound bucket) (heq : ∀ idx, keysOf' idx = keysOf idx) :
    Gathered keysOf' bound bucket :=
  ⟨h.ordered, h.below, fun idx => by rw [heq, h.entries]⟩

/-- Entries below the bound, and one entry for the bound after them. -/
theorem snoc (hordered : bucket.Pairwise fun a b => a.1 < b.1) (hbelow : ∀ e ∈ bucket, e.1 < bound)
    (hentries : ∀ idx, idx ≠ bound → bucket.filter (fun e => e.1 == idx) = gathered idx (keysOf idx))
    {keys : List Hash} (hkeys : gathered bound (keysOf bound) = [(bound, keys)]) :
    Gathered keysOf bound (bucket ++ [(bound, keys)]) where
  ordered := List.pairwise_append.mpr ⟨hordered, List.pairwise_singleton _ _, fun a ha b hb => by
    rw [List.mem_singleton] at hb
    rw [hb]
    exact hbelow a ha⟩
  below := fun e he => by
    match List.mem_append.mp he with
    | .inl hold => exact UInt8.le_of_lt (hbelow e hold)
    | .inr hnew => rw [List.mem_singleton.mp hnew]; exact UInt8.le_refl _
  entries := fun idx => by
    rw [List.filter_append]
    by_cases hidx : idx = bound
    · subst hidx
      rw [filter_eq_nil_of_below hbelow, hkeys, List.nil_append, List.filter_cons_of_pos (by simp), List.filter_nil]
    · rw [List.filter_cons_of_neg (by simpa using fun heq => hidx heq.symm), List.filter_nil,
        List.append_nil, hentries idx hidx]

/-- A contribution for the highest resource so far joins that resource's entry, or is its
first. -/
theorem append (h : Gathered keysOf bound bucket) (key : Hash)
    (hkeys : ∀ idx, keysOf' idx = if idx = bound then keysOf idx ++ [key] else keysOf idx) :
    Gathered keysOf' bound (appendMultisigContrib bucket bound key) := by
  have hother : ∀ idx, idx ≠ bound → gathered idx (keysOf' idx) = gathered idx (keysOf idx) :=
    fun idx hne => by rw [hkeys, if_neg hne]
  have hbound : gathered bound (keysOf' bound) = [(bound, keysOf bound ++ [key])] := by
    rw [hkeys, if_pos rfl, gathered_append]
  unfold appendMultisigContrib
  rcases List.eq_nil_or_concat bucket with hnil | ⟨front, ⟨lastIdx, keys⟩, hbucket⟩
  · subst hnil
    rw [eq_nil_of_gathered (h.entries bound).symm] at hbound
    exact snoc .nil nofun (fun idx hne => by rw [hother idx hne, ← h.entries]) hbound
  · rw [List.concat_eq_append] at hbucket
    subst hbucket
    have ⟨hfront, _, hlast⟩ := List.pairwise_append.mp h.ordered
    have hfrontBelow : ∀ e ∈ front, e.1 < lastIdx := fun e he => hlast e he _ List.mem_cons_self
    rw [List.getLast?_append_of_ne_nil _ (List.cons_ne_nil _ _), List.getLast?_singleton]
    dsimp only
    split
    · next heq =>
      subst heq
      have hsame : keysOf lastIdx = keys := by
        have hentry : gathered lastIdx (keysOf lastIdx) = [(lastIdx, keys)] := by
          rw [← h.entries, List.filter_append, filter_eq_nil_of_below hfrontBelow, List.nil_append,
            List.filter_cons_of_pos (by simp), List.filter_nil]
        exact eq_of_gathered hentry
      rw [List.dropLast_concat]
      rw [hsame] at hbound
      refine snoc hfront hfrontBelow (fun idx hne => ?_) hbound
      rw [hother idx hne, ← h.entries, List.filter_append,
        List.filter_cons_of_neg (by simpa using fun heq => hne heq.symm), List.filter_nil,
        List.append_nil]
    · next hne =>
      have hlastBelow : lastIdx < bound :=
        UInt8.lt_of_le_of_ne (h.below _ (List.mem_append_right _ List.mem_cons_self)) hne
      have hbelow : ∀ e ∈ front ++ [(lastIdx, keys)], e.1 < bound := by
        intro e he
        match List.mem_append.mp he with
        | .inl hold => exact UInt8.lt_trans (hfrontBelow e hold) hlastBelow
        | .inr hnew => rw [List.mem_singleton.mp hnew]; exact hlastBelow
      have hnone : keysOf bound = [] :=
        eq_nil_of_gathered (by rw [← h.entries, filter_eq_nil_of_below hbelow])
      rw [hnone] at hbound
      exact snoc h.ordered hbelow (fun idx hne => by rw [hother idx hne, ← h.entries]) hbound

end Gathered

theorem contributions_concat (signers : List (UInt8 × SignerEnum)) (entry : UInt8 × SignerEnum)
    (idx : UInt8) :
    contributions P ctx (signers ++ [entry]) idx = contributions P ctx signers idx ++
      if entry.1 = idx then (entry.2.contribution P ctx idx).toList else [] := by
  rw [contributions, List.filter_append, List.filterMap_append]
  by_cases hidx : entry.1 = idx
  · rw [if_pos hidx, List.filter_cons_of_pos (by simpa using hidx), ← hidx]
    cases hkey : entry.2.contribution P ctx entry.1 <;> simp [contributions, hkey]
  · rw [if_neg hidx, List.filter_cons_of_neg (by simpa using hidx)]
    rfl

/-- One signer more, at or above all resources before it. -/
theorem Gathered.step {before : List (UInt8 × SignerEnum)} {entry : UInt8 × SignerEnum}
    {auth auth' : AuthContext} (h : Gathered (contributions P ctx before) entry.1 auth.multisig)
    (hok : resolveSigner P ctx auth entry.1 entry.2 = .ok auth') :
    Gathered (contributions P ctx (before ++ [entry])) entry.1 auth'.multisig := by
  rw [multisig_of_resolveSigner hok]
  cases hkey : entry.2.contribution P ctx entry.1 with
  | none =>
    refine h.congr fun idx => ?_
    rw [contributions_concat]
    split
    · next hidx => rw [← hidx, hkey, Option.toList_none, List.append_nil]
    · rw [List.append_nil]
  | some key =>
    refine h.append key fun idx => ?_
    rw [contributions_concat]
    by_cases hidx : idx = entry.1
    · rw [if_pos hidx.symm, if_pos hidx, hidx, hkey, Option.toList_some]
    · rw [if_neg (Ne.symm hidx), if_neg hidx, List.append_nil]

/-- Resolving signers in resource order gathers all contributions of every resource. -/
theorem Gathered.run {before entries : List (UInt8 × SignerEnum)} {bound : UInt8}
    {auth auth' : AuthContext} (h : Gathered (contributions P ctx before) bound auth.multisig)
    (hordered : entries.Pairwise fun a b => a.1 ≤ b.1) (hbound : ∀ e ∈ entries, bound ≤ e.1)
    (hok : resolveSigners P ctx auth entries = .ok auth') :
    ∃ top, Gathered (contributions P ctx (before ++ entries)) top auth'.multisig := by
  induction entries generalizing auth bound before with
  | nil =>
    cases hok
    rw [List.append_nil]
    exact ⟨bound, h⟩
  | cons entry rest ih =>
    have ⟨mid, hmid, hrest⟩ := ok_bind_iff.mp hok
    have ⟨hfirst, hothers⟩ := List.pairwise_cons.mp hordered
    have hstep := (h.raise (hbound _ List.mem_cons_self)).step hmid
    have ⟨top, htop⟩ := ih hstep hothers hfirst hrest
    rw [List.append_assoc] at htop
    exact ⟨top, htop⟩

theorem gathered_of_resolveSigners {signers : List (UInt8 × SignerEnum)} {auth : AuthContext}
    (hordered : signers.Pairwise fun a b => a.1 ≤ b.1) (hok : resolveSigners P ctx {} signers = .ok auth)
    : ∃ top, Gathered (contributions P ctx signers) top auth.multisig :=
  have hnil : Gathered (contributions P ctx []) 0 ({} : AuthContext).multisig :=
    Gathered.nil.congr fun _ => rfl
  hnil.run hordered (fun _ _ => UInt8.zero_le) hok

end

/-! ### The merge walk -/

/-- Against ascending contributions, one step of the walk finds the key if it is there and
leaves what is above it. -/
theorem advance_of_pairwise {lockPk : Bytes} {contrib : List Bytes} (h : contrib.Pairwise (· < ·)) :
    advance lockPk contrib =
      (decide (lockPk ∈ contrib), contrib.filter fun c => decide (lockPk < c)) := by
  induction contrib with
  | nil => rfl
  | cons c cs ih =>
    obtain ⟨hfirst, hrest⟩ := List.pairwise_cons.mp h
    rw [advance]
    split
    · next hlt =>
      have hne : lockPk ≠ c := fun heq => List.lt_irrefl _ (heq ▸ hlt)
      rw [ih hrest, List.filter_cons_of_neg (by simpa using List.lt_asymm hlt)]
      simp [hne]
    · next hge =>
      split
      · next heq =>
        subst heq
        have habove : cs.filter (fun d => decide (c < d)) = cs :=
          List.filter_eq_self.mpr fun d hd => decide_eq_true (hfirst d hd)
        rw [List.filter_cons_of_neg (by simp), habove]
        simp
      · next hne =>
        have hlt : lockPk < c := Std.lt_of_le_of_ne (List.not_lt.mp hge) (Ne.symm hne)
        have habove : (c :: cs).filter (fun d => decide (lockPk < d)) = c :: cs := by
          refine List.filter_eq_self.mpr fun d hd => decide_eq_true ?_
          rcases List.mem_cons.mp hd with heq | hmem
          · exact heq ▸ hlt
          · exact Std.lt_trans hlt (hfirst d hmem)
        have hout : lockPk ∉ c :: cs := by
          intro hmem
          rw [← habove, List.mem_filter, decide_eq_true_eq] at hmem
          exact List.lt_irrefl _ hmem.2
        rw [habove]
        simp [hout]

/-- The walk over two ascending lists decides whether enough keys of the one occur in the
other. -/
theorem mergeWalk_of_pairwise {threshold : Nat} {pks contrib : List Bytes} {matched : Nat}
    (hpks : pks.Pairwise (· < ·)) (hcontrib : contrib.Pairwise (· < ·)) :
    mergeWalk threshold pks contrib matched =
      decide (threshold ≤ matched + pks.countP (· ∈ contrib)) := by
  induction pks generalizing contrib matched with
  | nil => rfl
  | cons pk pks ih =>
    have ⟨hfirst, hrest⟩ := List.pairwise_cons.mp hpks
    rw [mergeWalk, advance_of_pairwise hcontrib]
    dsimp only
    -- What is above this key decides the membership of the keys after it.
    have hcount : pks.countP (· ∈ contrib.filter fun c => decide (pk < c)) =
        pks.countP (· ∈ contrib) := by
      refine List.countP_congr fun p hp => ?_
      simp [hfirst p hp]
    rw [ih hrest (hcontrib.sublist List.filter_sublist), hcount, List.countP_cons]
    have hhit : (if decide (pk ∈ contrib) = true then 1 else 0) = (decide (pk ∈ contrib)).toNat := by
      cases decide (pk ∈ contrib) <;> rfl
    rw [hhit]
    split
    · exact (decide_eq_true (by omega)).symm
    · rw [decide_eq_decide]
      omega

/-! ### Unlocking -/

theorem isStrictlyAscending_iff {keys : List Bytes} :
    isStrictlyAscending keys = true ↔ keys.Pairwise (· < ·) := by
  constructor
  · exact pairwise_of_isStrictlyAscending
  · intro h
    induction keys with
    | nil => rfl
    | cons a rest ih =>
      have ⟨hfirst, hrest⟩ := List.pairwise_cons.mp h
      cases rest with
      | nil => rfl
      | cons b rest =>
        rw [isStrictlyAscending, Bool.and_eq_true, decide_eq_true_eq]
        exact ⟨hfirst b List.mem_cons_self, ih hrest⟩

theorem pairwise_of_decode {buf rest : Bytes} {threshold : UInt8} {pubkeys : Bytes}
    (h : LockEnum.decode.run buf = .ok (.multisig threshold pubkeys, rest)) :
    (asChunks pubkeys).Pairwise (· < ·) :=
  have hvalid : validateMultisigFields threshold (LockEnum.nPubkeys pubkeys) pubkeys = .ok () :=
    LockEnum.valid_of_decode h
  pairwise_of_isStrictlyAscending (validateMultisigFields_eq_ok.mp hvalid).2.2

/-- With decoded instructions whose signers resolve, a decoded multisig lock opens for a
resource exactly when the keys its multisig signers contribute, in wire order, are there,
strictly ascending, and include as many of the lock's keys as the threshold asks for. -/
theorem multisig_unlock_iff {P : Primitives} {ctx : SignerResolveContext} {orig : Bytes} {n : Nat}
    {ix : DecodedIx} {auth : AuthContext} {buf rest : Bytes} {threshold : UInt8} {pubkeys : Bytes}
    (hix : decodeIx orig n = .ok ix) (hauth : resolveSigners P ctx {} ix.signers = .ok auth)
    (hlock : LockEnum.decode.run buf = .ok (.multisig threshold pubkeys, rest))
    (resourceIdx : UInt8) :
    ∃ opened, (LockEnum.multisig threshold pubkeys).unlock resourceIdx auth = .ok opened ∧
      (opened = true ↔
        contributions P ctx ix.signers resourceIdx ≠ [] ∧
        (contributions P ctx ix.signers resourceIdx).Pairwise (fun a b => a.val < b.val) ∧
        threshold.toNat ≤ (asChunks pubkeys).countP
          (· ∈ (contributions P ctx ix.signers resourceIdx).map Subtype.val)) := by
  have ⟨top, hgathered⟩ := gathered_of_resolveSigners (decodeIx_ordered hix) hauth
  have hslice := sliceForResource_eq (hgathered.ordered.imp UInt8.le_of_lt) resourceIdx
  rw [hgathered.entries] at hslice
  rw [LockEnum.unlock, hslice]
  cases hkeys : contributions P ctx ix.signers resourceIdx with
  | nil => exact ⟨false, rfl, by simp⟩
  | cons key keys =>
    refine ⟨_, rfl, ?_⟩
    rw [Bool.and_eq_true, isStrictlyAscending_iff, List.pairwise_map]
    simp only [ne_eq, reduceCtorEq, not_false_eq_true, true_and]
    refine and_congr_right fun hasc => ?_
    rw [mergeWalk_of_pairwise (pairwise_of_decode hlock) (List.pairwise_map.mpr hasc),
      Nat.zero_add, decide_eq_true_eq]

namespace Sample

def twoKeys : Bytes := zeroHash.val ++ oneHash.val

/-- Every signature verifies. -/
def trusting : Primitives :=
  { sha256 := fun _ => zeroHash, keyedHash := fun _ _ => zeroHash, blake2b := fun _ => zeroHash,
    verifySchnorr := fun _ _ _ => true }

/-- A user behind a two of two lock, and a payload of one signature. -/
def twoOfTwoContext : SignerResolveContext :=
  { payloadBytes := List.replicate 64 0, currentRestPreimage := [], payloadPresig := [],
    resources := [⟨⟨zeroHash, .write⟩,
      (Raw.mk KIND_USER 5 zeroHash MULTISIG_TAG (2 :: 2 :: twoKeys)).toBytes, 0, false, false⟩] }

/-- The signers of both keys, for resource 0, and no action. -/
def twoOfTwoIx : Bytes :=
  [2, 0, 0, 0, 0, 3, 0, 0, 0, 0, 0, 0, 3, 1, 0, 0, 0, 0, 0, 0, 0, 0]

theorem multisig_unlock_twoOfTwo :
    (LockEnum.multisig 2 twoKeys).unlock 0 ⟨[], [(0, [zeroHash, oneHash])]⟩ = .ok true := by
  have hix : decodeIx twoOfTwoIx 1 =
      .ok ⟨[(0, .multisigSchnorrSigPtr 0 0), (0, .multisigSchnorrSigPtr 1 0)], [], 22⟩ := rfl
  have hauth : resolveSigners trusting twoOfTwoContext {}
      [(0, .multisigSchnorrSigPtr 0 0), (0, .multisigSchnorrSigPtr 1 0)] =
        .ok ⟨[], [(0, [zeroHash, oneHash])]⟩ := rfl
  have hlock : LockEnum.decode.run (MULTISIG_TAG :: 2 :: 2 :: twoKeys) =
      .ok (.multisig 2 twoKeys, []) := rfl
  have ⟨opened, hrun, hiff⟩ := multisig_unlock_iff hix hauth hlock 0
  rw [hrun, hiff.mpr (by decide +kernel)]

end Sample

end Vprogs.Runtime
