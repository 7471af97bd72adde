import Vprogs.Bridge.SelectedChain

/-!
The bridge mirrors the selected chain. Its sink's canonical ids are the branch of the
block tree whose hashes are those of the tracked chain, every block with the metadata
it gets from its parent. This holds after every response, whether it was handled to its
end or not, as long as no returning block falls into a bucket behind the one being
filled.
-/
namespace Vprogs.Bridge

open Abi Canonical L1 Lane Runs
open Forest (tip position_unique getElem?_concat_of_some)

variable {R : Type} (L : L1Lib R) (cfg : L1BridgeConfig) (dag : Dag)

/-- A logged block is what the bridge makes of it on top of its parent. -/
def Linked (parent block : ChainBlockMetadata) : Prop :=
  (dag block.hash).parent = parent.hash ∧ block = dag.metadata L cfg block.parentId parent block.hash

/-- The worker's sink is the block tree with the branch `ids`, and that is the chain. -/
structure Tracks (w : BridgeWorker) (chain : List Hash) (p : CanonicalChainManager (Finset Nat) ChainBlockMetadata)
    (log : List ChainBlockMetadata) (ids : List Nat) : Prop where
  follows : ∃ bound ≤ p.base, CanonicalChainManager.Follows w.sink p bound
  tree : BlockTree (Linked L cfg dag) p log ids
  root : log[0]? = some w.genesis
  hashes : ids.map (fun id => log[id]?.map ChainBlockMetadata.hash) = chain.map some

variable {L cfg dag} {w : BridgeWorker} {chain : List Hash}
  {p : CanonicalChainManager (Finset Nat) ChainBlockMetadata} {log : List ChainBlockMetadata} {ids : List Nat}

theorem Linked.parent_hash {x y x' y' : ChainBlockMetadata} (h : Linked L cfg dag x y)
    (h' : Linked L cfg dag x' y') (hhash : BatchMetadata.blockHash y = BatchMetadata.blockHash y') :
    BatchMetadata.blockHash x = BatchMetadata.blockHash x' := by
  have hsame : y.hash = y'.hash := hhash
  exact h.1.symm.trans ((congrArg (fun hash => (dag hash).parent) hsame).trans h'.1)

namespace Tracks

theorem sink_metadata (h : Tracks L cfg dag w chain p log ids) {id : Nat} (hid : p.base ≤ id) :
    w.sink.metadata id = log[id]? := by
  have ⟨_, _, hfollows⟩ := h.follows
  rw [← h.tree.metadata hid, CanonicalChainManager.metadata, CanonicalChainManager.metadata, hfollows.base,
    hfollows.entries]

theorem sink_tip (h : Tracks L cfg dag w chain p log ids) : w.sink.chain.tip = tip ids := by
  have ⟨_, _, hfollows⟩ := h.follows
  exact hfollows.agrees.tip.trans h.tree.tip

theorem sink_index (h : Tracks L cfg dag w chain p log ids) (hash : Hash) (id : Nat) :
    w.sink.index hash = some id ↔ p.base ≤ id ∧ ∃ m, log[id]? = some m ∧ m.hash = hash := by
  have ⟨_, _, hfollows⟩ := h.follows
  rw [hfollows.index]
  exact h.tree.index hash id

/-- The block at a place of the chain is logged under the id at that place. -/
theorem logged_at (h : Tracks L cfg dag w chain p log ids) {k : Nat} {hash : Hash} (hk : chain[k]? = some hash) :
    ∃ id m, ids[k]? = some id ∧ log[id]? = some m ∧ m.hash = hash := by
  have hat := congrArg (·[k]?) h.hashes
  simp only [List.getElem?_map, hk, Option.map_some] at hat
  have ⟨id, hid, hhash⟩ := Option.map_eq_some_iff.mp hat
  have ⟨m, hm, heq⟩ := Option.map_eq_some_iff.mp hhash
  exact ⟨id, m, hid, hm, heq⟩

theorem take (h : Tracks L cfg dag w chain p log ids) (kept : Nat) :
    (ids.take kept).map (fun id => log[id]?.map ChainBlockMetadata.hash) = (chain.take kept).map some := by
  rw [List.map_take, List.map_take, h.hashes]

/-- The tip's block and its hash. -/
theorem tip_block (hroot : log[0]? = some w.genesis)
    (hhashes : ids.map (fun id => log[id]?.map ChainBlockMetadata.hash) = chain.map some) :
    ∃ m, log[tip ids]? = some m ∧ m.hash = chain.getLast?.getD w.genesis.hash := by
  have hlast := congrArg List.getLast? hhashes
  rw [List.getLast?_map, List.getLast?_map] at hlast
  cases hids : ids.getLast? with
  | none =>
    rw [hids] at hlast
    have hchain := Option.map_eq_none_iff.mp hlast.symm
    refine ⟨w.genesis, ?_, by rw [hchain]; rfl⟩
    rw [Forest.tip, hids]
    exact hroot
  | some id =>
    rw [hids, Option.map_some] at hlast
    obtain ⟨hash, hchain, heq⟩ := Option.map_eq_some_iff.mp hlast.symm
    obtain ⟨m, hm, hhash⟩ := Option.map_eq_some_iff.mp heq.symm
    refine ⟨m, ?_, by rw [hchain]; exact hhash⟩
    rw [Forest.tip, hids]
    exact hm

theorem tipMetadata (h : Tracks L cfg dag w chain p log ids) :
    ∃ m, w.tipMetadata = some m ∧ log[tip ids]? = some m ∧ m.hash = chain.getLast?.getD w.genesis.hash := by
  have ⟨m, hm, hhash⟩ := tip_block h.root h.hashes
  refine ⟨m, ?_, hm, hhash⟩
  rw [BridgeWorker.tipMetadata, h.sink_tip]
  match h.tree.live, htip : tip ids with
  | _, 0 =>
    rw [htip] at hm
    exact h.root.symm.trans hm
  | .inl hlive, id + 1 =>
    rw [htip] at hlive hm
    exact (h.sink_metadata hlive).trans hm
  | .inr ⟨hzero, _⟩, _ + 1 => exact absurd (htip.symm.trans hzero) (Nat.succ_ne_zero _)

end Tracks

/-! ### One block -/

/-- A well-formed block that extends the tip and, if it returns, does not fall behind. -/
theorem appendBlock_tracks (debug : Bool) (h : Tracks L cfg dag w chain p log ids) {chainBlock : RpcChainBlock R}
    {hash : Hash} {block : ChainBlockMetadata} {txs : List Tx} (hparse : chainBlock.parse L = .ok (block, txs))
    (hpresents : dag.Presents L chainBlock hash)
    (hextends : (dag hash).parent = chain.getLast?.getD w.genesis.hash) (hroot : hash ≠ w.genesis.hash)
    (hforward : p.seen = tip ids ∨ ∀ id ∈ p.index hash, Bucket.locate p.seen ≤ Bucket.locate id) :
    ∃ w' p' log' ids', w.appendBlock L cfg debug chainBlock = some (.ok (), w') ∧ w'.genesis = w.genesis ∧
      Tracks L cfg dag w' (chain ++ [hash]) p' log' ids' ∧
      (p'.seen = tip ids' ∨ p.seen ≠ tip ids ∧ p'.seen = p.seen ∧ p'.index = p.index) := by
  have ⟨parent, hparent, hx, hhash⟩ := h.tipMetadata
  have ⟨bound, hbound, hfollows⟩ := h.follows
  have hbound' : max bound 0 ≤ p.base := by omega
  rw [Dag.Presents, hparse] at hpresents
  have ⟨hblock, htxs⟩ := hpresents
  rw [BridgeWorker.appendBlock_eq debug hparent, hparse, h.sink_tip]
  dsimp only
  have hmetadata : threaded L cfg (tip ids) parent block (laneTxs cfg 0 txs)
      (txs.foldl (carrySettlement L cfg block) parent.lastSettlement) =
      dag.metadata L cfg (tip ids) parent hash := by
    rw [hblock, htxs]
    rfl
  rw [hmetadata]
  have hlink : Linked L cfg dag parent (dag.metadata L cfg (tip ids) parent hash) :=
    ⟨hextends.trans hhash.symm, rfl⟩
  have hfresh : ∀ r, log[0]? = some r → BatchMetadata.blockHash (dag.metadata L cfg (tip ids) parent hash) ≠
      BatchMetadata.blockHash r := by
    intro r hr
    cases h.root.symm.trans hr
    exact hroot
  have hvalid := h.tree.valid hx hlink (Linked.parent_hash) hfresh
  -- above the tip, a returning block has an id that was given out before
  have hreturns : ∀ id, p.index hash = some id → p.seen ≠ tip ids := by
    intro id hid htip
    have habove : plain.tip p.chain < id := hvalid id hid
    have hle := hfollows.logged.index hash id hid
    rw [h.tree.tip] at habove
    omega
  have hforward' : p.Forward (.append (dag.metadata L cfg (tip ids) parent hash)) := by
    match hforward with
    | .inl htip => exact fun id hid => absurd htip (hreturns id hid)
    | .inr hforward => exact hforward
  have ⟨m', p', hm, hp, hnext⟩ := CanonicalChainManager.step_follows debug hfollows hvalid hforward'
  rw [hm]
  cases hindex : p.index hash with
  | some id =>
    have ⟨hstep, htree, y, hy, hyhash⟩ := h.tree.append_seen hx hlink (Linked.parent_hash) hfresh hindex
    cases hp.symm.trans hstep
    refine ⟨_, { p with chain := insert id p.chain }, log, ids ++ [id], rfl, rfl,
      ⟨⟨_, hbound', hnext⟩, htree, h.root, ?_⟩, .inr ⟨hreturns id hindex, rfl, rfl⟩⟩
    rw [List.map_append, List.map_append, h.hashes, List.map_singleton, hy]
    exact congrArg (fun hash => chain.map some ++ [some hash]) hyhash
  | none =>
    have ⟨p'', hstep, htree, hseen, hbase⟩ := h.tree.append_new hx hlink (Linked.parent_hash) hfresh rfl hindex
    cases hp.symm.trans hstep
    refine ⟨_, p', _, ids ++ [log.length], rfl, rfl,
      ⟨⟨_, ?_, hnext⟩, htree, getElem?_concat_of_some h.root, ?_⟩, .inl ?_⟩
    · exact hbase ▸ hbound'
    · have hold : ids.map (fun id => (log ++ [dag.metadata L cfg (tip ids) parent hash])[id]?.map
          ChainBlockMetadata.hash) = ids.map fun id => log[id]?.map ChainBlockMetadata.hash :=
        List.map_congr_left fun id hid => by
          rw [List.getElem?_append_left (h.tree.branch.lt_length hid)]
      rw [List.map_append, List.map_append, List.map_singleton, List.getElem?_concat_length, hold, h.hashes]
      rfl
    · rw [hseen, Forest.tip, List.getLast?_concat]
      rfl

/-! ### One response -/

theorem readable_cons_ok {chainBlock : RpcChainBlock R} {rest : List (RpcChainBlock R)}
    {parsed : ChainBlockMetadata × List Tx} (h : chainBlock.parse L = .ok parsed) :
    readable L (chainBlock :: rest) = readable L rest + 1 := by
  rw [readable, List.takeWhile_cons, h]
  rfl

theorem readable_cons_error {chainBlock : RpcChainBlock R} {rest : List (RpcChainBlock R)} {e : Error}
    (h : chainBlock.parse L = .error e) : readable L (chainBlock :: rest) = 0 := by
  rw [readable, List.takeWhile_cons, h]
  rfl

/-- The bridge follows the added blocks up to the first malformed one. -/
theorem appendBlocks_tracks (debug : Bool) {chainBlocks : List (RpcChainBlock R)} {added : List Hash}
    (hpresents : List.Forall₂ (dag.Presents L) chainBlocks added) (h : Tracks L cfg dag w chain p log ids)
    (hselected : dag.Selected (chain.getLast?.getD w.genesis.hash) added) (hroot : w.genesis.hash ∉ added)
    (hforward : p.seen = tip ids ∨ ∀ hash ∈ added.take (readable L chainBlocks), ∀ id ∈ p.index hash,
      Bucket.locate p.seen ≤ Bucket.locate id) :
    ∃ outcome w' p' log' ids', w.appendBlocks L cfg debug chainBlocks = some (outcome, w') ∧
      w'.genesis = w.genesis ∧
      Tracks L cfg dag w' (chain ++ added.take (readable L chainBlocks)) p' log' ids' ∧
      (outcome = .ok () → added.take (readable L chainBlocks) = added) := by
  induction hpresents generalizing w chain p log ids with
  | nil => exact ⟨.ok (), w, p, log, ids, rfl, rfl, by rwa [List.take_nil, List.append_nil], fun _ => rfl⟩
  | @cons chainBlock hash chainBlocks added hpresent _ ih =>
    have ⟨hextends, hrest⟩ := List.isChain_cons_cons.mp hselected
    have ⟨hne, hroot'⟩ := not_or.mp (mt List.mem_cons.mpr hroot)
    cases hparse : chainBlock.parse L with
    | error e =>
      have ⟨parent, hparent, _⟩ := h.tipMetadata
      have hstep : w.appendBlock L cfg debug chainBlock = some (.error e, w) := by
        rw [BridgeWorker.appendBlock_eq debug hparent, hparse]
      refine ⟨.error e, w, p, log, ids, ?_, rfl, ?_, fun hok => by cases hok⟩
      · rw [BridgeWorker.appendBlocks, hstep]
        rfl
      · rw [readable_cons_error hparse, List.take_zero, List.append_nil]
        exact h
    | ok parsed =>
      rw [readable_cons_ok hparse, List.take_succ_cons] at hforward ⊢
      have ⟨w', p', log', ids', hstep, hgenesis, hnext, hseen⟩ := appendBlock_tracks debug h hparse hpresent hextends
        (Ne.symm hne) (hforward.imp id fun hall => hall hash List.mem_cons_self)
      have hforward' : p'.seen = tip ids' ∨ ∀ hash ∈ added.take (readable L chainBlocks),
          ∀ id ∈ p'.index hash, Bucket.locate p'.seen ≤ Bucket.locate id := by
        match hseen with
        | .inl htip => exact .inl htip
        | .inr ⟨hbelow, hsame, hindex⟩ =>
          rw [hsame, hindex]
          exact .inr fun hash hmem => hforward.resolve_left hbelow hash (List.mem_cons_of_mem _ hmem)
      have hlast : (chain ++ [hash]).getLast?.getD w'.genesis.hash = hash := by
        rw [List.getLast?_concat]
        rfl
      have ⟨outcome, w'', p'', log'', ids'', hrun, hgenesis', htracks, hall⟩ :=
        ih hnext (hlast.symm ▸ hrest) (hgenesis ▸ hroot') hforward'
      refine ⟨outcome, w'', p'', log'', ids'', ?_, hgenesis'.trans hgenesis, ?_,
        fun hok => congrArg (hash :: ·) (hall hok)⟩
      · rw [BridgeWorker.appendBlocks, hstep]
        exact hrun
      · rw [List.append_assoc] at htracks
        exact htracks

/-- The kept part of the chain ends in a block that is still logged. -/
theorem Tracks.live_take (h : Tracks L cfg dag w chain p log ids) {kept : Nat} (hkept : kept ≤ chain.length)
    (hseed : kept = 0 → w.sink.base = 1)
    (hknown : ∀ hash ∈ (chain.take kept).getLast?, (w.sink.index hash).isSome = true) :
    p.base ≤ tip (ids.take kept) ∨ tip (ids.take kept) = 0 ∧ p.base = 1 := by
  have ⟨_, _, hfollows⟩ := h.follows
  cases hlast : (chain.take kept).getLast? with
  | none =>
    have hnil := List.getLast?_eq_none_iff.mp hlast
    have hlen := congrArg List.length hnil
    rw [List.length_take_of_le hkept] at hlen
    have hzero : kept = 0 := hlen
    refine .inr ⟨by rw [hzero]; rfl, ?_⟩
    rw [← hfollows.base]
    exact hseed hzero
  | some hash =>
    have ⟨id, hid⟩ := Option.isSome_iff_exists.mp (hknown hash hlast)
    have ⟨hbase, m, hm, hmhash⟩ := (h.sink_index hash id).mp hid
    have ⟨m', hm', hhash⟩ := Tracks.tip_block h.root (h.take kept)
    rw [hlast] at hhash
    have heq := position_unique h.tree.hashes hm hm' (hmhash.trans hhash.symm)
    exact .inl (heq ▸ hbase)

theorem handleReorg_tracks (debug : Bool) (h : Tracks L cfg dag w chain p log ids) {kept : Nat}
    (hkept : kept < chain.length)
    (hlive : p.base ≤ tip (ids.take kept) ∨ tip (ids.take kept) = 0 ∧ p.base = 1) :
    ∃ sink p', w.handleReorg debug (chain.drop kept).reverse = some (.ok (), { w with sink := sink }) ∧
      Tracks L cfg dag { w with sink := sink } (chain.take kept) p' log (ids.take kept) ∧
      p'.seen = p.seen ∧ p'.index = p.index := by
  obtain ⟨bound, hbound, hfollows⟩ := h.follows
  have hchild : chain[kept]? = some chain[kept] := List.getElem?_eq_getElem hkept
  obtain ⟨id, m, hid, hm, hhash⟩ := h.logged_at hchild
  obtain ⟨habove, m', hm', hparent⟩ := h.tree.branch.edge_take hid
  cases hm.symm.trans hm'
  have hbase : p.base ≤ id := by omega
  obtain ⟨hvalid, p', hp, hpbase, hpentries, hpindex, htree⟩ := h.tree.rollback hlive
  obtain ⟨sink, p'', hsink, hp', hnext⟩ : ∃ sink p'', w.sink.rollback (CanonicalChain.oracle debug)
      (tip (ids.take kept)) = some sink ∧ p.rollback plain (tip (ids.take kept)) = some p'' ∧
      CanonicalChainManager.Follows sink p'' bound := CanonicalChainManager.rollback_follows hfollows hvalid
  cases hp.symm.trans hp'
  refine ⟨sink, p', ?_, ⟨⟨bound, hpbase ▸ hbound, hnext⟩, htree, h.root, h.take kept⟩, ?_, hpindex⟩
  · rw [BridgeWorker.handleReorg, List.getLast?_reverse, List.head?_drop, hchild, Option.bind_eq_bind,
      Option.bind_some, (h.sink_index _ id).mpr ⟨hbase, m, hm, hhash⟩]
    dsimp only
    rw [h.sink_metadata hbase, hm, Option.bind_eq_bind, Option.bind_some,
      show m.parentId = tip (ids.take kept) from hparent, hsink]
    rfl
  · rw [CanonicalChainManager.seen, CanonicalChainManager.seen, hpbase, hpentries]

theorem applyResponse_tracks (debug : Bool) (h : Tracks L cfg dag w chain p log ids)
    {response : VirtualChainResponse R} {kept : Nat} {added : List Hash} (hkept : kept ≤ chain.length)
    (hremoved : response.removedChainBlockHashes = (chain.drop kept).reverse)
    (hseed : kept = 0 → w.sink.base = 1)
    (hknown : ∀ hash ∈ (chain.take kept).getLast?, (w.sink.index hash).isSome = true)
    (hselected : dag.Selected ((chain.take kept).getLast?.getD w.genesis.hash) added)
    (hroot : w.genesis.hash ∉ added)
    (hpresents : List.Forall₂ (dag.Presents L) response.chainBlockAcceptedTransactions added)
    (hforward : ∀ hash ∈ added.take (readable L response.chainBlockAcceptedTransactions),
      ∀ id ∈ w.sink.index hash, Bucket.locate w.sink.seen ≤ Bucket.locate id) :
    ∃ outcome w' p' log' ids', w.applyResponse L cfg debug response = some (outcome, w') ∧
      w'.genesis = w.genesis ∧
      Tracks L cfg dag w'
        (chain.take kept ++ added.take (readable L response.chainBlockAcceptedTransactions)) p' log' ids' ∧
      (outcome = .ok () → added.take (readable L response.chainBlockAcceptedTransactions) = added) := by
  have ⟨_, _, hfollows⟩ := h.follows
  have hseen : w.sink.seen = p.seen := by
    rw [CanonicalChainManager.seen, CanonicalChainManager.seen, hfollows.base, hfollows.entries]
  rw [hfollows.index, hseen] at hforward
  -- the sink after the reorg, if there is one
  have ⟨sink, p', ids', hreorg, hrolled, hseen', hindex⟩ : ∃ sink p' ids',
      (if response.removedChainBlockHashes.isEmpty then some (.ok (), w)
        else w.handleReorg debug response.removedChainBlockHashes) = some (.ok (), { w with sink := sink }) ∧
      Tracks L cfg dag { w with sink := sink } (chain.take kept) p' log ids' ∧
      p'.seen = p.seen ∧ p'.index = p.index := by
    match Nat.lt_or_eq_of_le hkept with
    | .inl hlt =>
      have ⟨sink, p', hstep, htracks, hsame⟩ := handleReorg_tracks debug h hlt (h.live_take hkept hseed hknown)
      refine ⟨sink, p', _, ?_, htracks, hsame⟩
      rw [hremoved, if_neg ?_, hstep]
      rw [List.isEmpty_reverse, List.isEmpty_iff, List.drop_eq_nil_iff]
      omega
    | .inr heq =>
      refine ⟨w.sink, p, ids, ?_, ?_, rfl, rfl⟩
      · rw [hremoved, heq, List.drop_length]
        rfl
      · rw [heq, List.take_length]
        exact h
  have ⟨outcome, w', p'', log'', ids'', hblocks, hgenesis, htracks, hall⟩ :=
    appendBlocks_tracks debug hpresents hrolled hselected hroot (.inr (by rw [hseen', hindex]; exact hforward))
  rw [BridgeWorker.applyResponse, hreorg]
  change ∃ outcome w' p' log' ids', BridgeWorker.andThen (BridgeWorker.appendBlocks L cfg debug { w with sink := sink }
    response.chainBlockAcceptedTransactions) _ = some (outcome, w') ∧ _
  rw [hblocks]
  match outcome with
  | .error e => exact ⟨.error e, w', p'', log'', ids'', rfl, hgenesis, htracks, fun hok => by cases hok⟩
  | .ok () =>
    have ⟨m, hm, _⟩ := htracks.tipMetadata
    refine ⟨.ok (), { w' with tipDaa := m.daaScore, settlement := m.lastSettlement }, p'', log'',
      ids'', ?_, hgenesis, ⟨htracks.follows, htracks.tree, htracks.root, htracks.hashes⟩, hall⟩
    change w'.publish.map _ = _
    rw [BridgeWorker.publish, hm]
    rfl

theorem handleFinalization_tracks (debug : Bool) (h : Tracks L cfg dag w chain p log ids) {pruningPoint : Hash}
    {root : Nat} (hconsistent : ∀ id ∈ w.sink.index pruningPoint, pruningPoint ∈ chain ∧ root ≤ id) :
    ∃ p', Tracks L cfg dag (w.handleFinalization debug pruningPoint root) chain p' log ids ∧
      (w.handleFinalization debug pruningPoint root).genesis = w.genesis := by
  rw [BridgeWorker.handleFinalization]
  cases hindex : w.sink.index pruningPoint with
  | none => exact ⟨p, h, rfl⟩
  | some id =>
    have ⟨bound, hbound, hfollows⟩ := h.follows
    have ⟨hmem, hle⟩ := hconsistent id hindex
    have ⟨k, hk⟩ := List.mem_iff_getElem?.mp hmem
    have ⟨id', m', hid', hm', hhash'⟩ := h.logged_at hk
    have ⟨_, m, hm, hhash⟩ := (h.sink_index pruningPoint id).mp hindex
    have heq := position_unique h.tree.hashes hm hm' (hhash.trans hhash'.symm)
    have htip : root ≤ tip ids := by
      have hle' := h.tree.branch.le_tip (List.mem_of_getElem? hid')
      omega
    have ⟨hbase, htree⟩ := h.tree.finalize htip
    refine ⟨_, ⟨⟨max bound root, ?_, CanonicalChainManager.finalize_follows hfollows root⟩, htree, h.root,
      h.hashes⟩, rfl⟩
    rw [hbase]
    exact max_le_max hbound (Nat.le_refl root)

/-! ### Whole runs -/

namespace Session

variable (L cfg dag)

structure Inv (s : Session) : Prop where
  tracks : ∃ p log ids, Tracks L cfg dag s.worker s.chain p log ids
  seed : s.worker.genesis.lastSettlement = none
  selected : dag.Selected s.worker.genesis.hash s.selected
  followed : s.chain <+: s.selected
  complete : s.outcome = .ok () → s.chain = s.selected

variable {L cfg dag} {s : Session}

theorem inv_start (header : RpcHeader) : (start header).Inv L cfg dag where
  tracks := ⟨{ chain := ∅ }, [.ofHeader header], [],
    ⟨0, Nat.zero_le _, CanonicalChainManager.follows_empty⟩, .root _, rfl, rfl⟩
  seed := rfl
  selected := List.isChain_singleton _
  followed := List.prefix_rfl
  complete _ := rfl

theorem selected_take {from_ : Hash} {selected chain added : List Hash} (h : dag.Selected from_ selected)
    (hchain : chain <+: selected) {kept : Nat}
    (hadded : dag.Selected ((chain.take kept).getLast?.getD from_) added) :
    dag.Selected from_ (chain.take kept ++ added) := by
  have hkept : List.IsChain (fun parent hash => (dag hash).parent = parent) (from_ :: chain.take kept) :=
    List.IsChain.prefix h ((List.prefix_cons_inj from_).mpr ((List.take_prefix kept chain).trans hchain))
  refine List.isChain_append.mpr ⟨hkept, List.isChain_of_isChain_cons hadded, ?_⟩
  intro parent hparent hash hhash
  rw [List.getLast?_cons, Option.mem_some_iff] at hparent
  rw [Dag.Selected, hparent] at hadded
  exact List.IsChain.rel_head? hadded hhash

theorem step_inv (debug : Bool) (h : s.Inv L cfg dag) {e : Event R} (hconsistent : s.Consistent L dag e)
    (hforward : s.Forward L e) : ∃ s', s.step L cfg debug e = some s' ∧ s'.Inv L cfg dag := by
  obtain ⟨p, log, ids, htracks⟩ := h.tracks
  cases e with
  | fetch result kept added =>
    cases result with
    | ok response =>
      obtain ⟨hkept, hremoved, hseed, hknown, hselected, hroot, hpresents⟩ := hconsistent
      obtain ⟨outcome, w, p', log', ids', hrun, hgenesis, htracks', hall⟩ := applyResponse_tracks debug htracks
        hkept hremoved hseed hknown hselected hroot hpresents hforward
      obtain ⟨m, hm, _⟩ := htracks.tipMetadata
      refine ⟨⟨w, s.chain.take kept ++ added, s.chain.take kept ++
        added.take (readable L response.chainBlockAcceptedTransactions), outcome⟩, ?_, ⟨p', log', ids', htracks'⟩,
        hgenesis ▸ h.seed, hgenesis ▸ selected_take h.selected h.followed hselected, ?_, fun hok => ?_⟩
      · rw [step, BridgeWorker.fetchChainUpdates, hm]
        dsimp only
        rw [hrun]
        rfl
      · exact (List.prefix_append_right_inj _).mpr (List.take_prefix _ _)
      · exact congrArg (s.chain.take kept ++ ·) (hall hok)
    | error e =>
      obtain ⟨m, hm, _⟩ := htracks.tipMetadata
      refine ⟨{ s with outcome := .error e }, ?_, h.tracks, h.seed, h.selected, h.followed, fun hok => by cases hok⟩
      rw [step, BridgeWorker.fetchChainUpdates, hm]
      rfl
  | finalization pruningPoint root =>
    obtain ⟨p', htracks', hgenesis⟩ := handleFinalization_tracks debug htracks hconsistent
    exact ⟨_, rfl, ⟨p', log, ids, htracks'⟩, hgenesis ▸ h.seed, hgenesis ▸ h.selected, h.followed, h.complete⟩

/-! ### The mirror -/

/-- A block's metadata refers to its predecessor's id and fields. -/
structure Threads (prev next : Nat × ChainBlockMetadata) : Prop where
  ascending : prev.1 < next.1
  parentId : next.2.parentId = prev.1
  prevSeqCommit : next.2.prevSeqCommit = prev.2.seqCommit
  prevTimestamp : next.2.prevTimestamp = prev.2.timestamp
  prevLaneTip : next.2.prevLaneTip = prev.2.laneTip
  prevLaneBlueScore : next.2.prevLaneBlueScore = prev.2.laneBlueScore

variable (L cfg dag) (s)

/-- The canonical blocks of the sink, with their ids, are those of the tracked chain. The
sink has the blocks from its base on; the ones below are finalized. -/
structure MirroredBy (nodes : List (Nat × ChainBlockMetadata)) : Prop where
  selected : dag.Selected s.worker.genesis.hash s.selected
  followed : s.chain <+: s.selected
  complete : s.outcome = .ok () → s.chain = s.selected
  hashes : nodes.map (fun node => node.2.hash) = s.chain
  canonical : ∀ id, s.worker.sink.base ≤ id →
    s.worker.sink.chain.isCanonical s.worker.sink.chain.snapshot id = decide (id ∈ nodes.map Prod.fst)
  tip : s.worker.sink.chain.tip = Forest.tip (nodes.map Prod.fst)
  logged : ∀ node ∈ nodes, s.worker.sink.base ≤ node.1 →
    s.worker.sink.metadata node.1 = some node.2 ∧ s.worker.sink.index node.2.hash = some node.1
  threads : List.IsChain Threads ((0, s.worker.genesis) :: nodes)
  settled : ∀ before node after, nodes = before ++ node :: after →
    node.2.lastSettlement = dag.lastSettlement L cfg ((before ++ [node]).map fun node => node.2.hash)

def Mirrors : Prop := ∃ nodes, s.MirroredBy L cfg dag nodes

variable {L cfg dag} {s}

theorem lastSettlement_of_linked {parent block : ChainBlockMetadata} (h : Linked L cfg dag parent block)
    {done : List Hash} (hdone : parent.lastSettlement = dag.lastSettlement L cfg done) :
    block.lastSettlement = dag.lastSettlement L cfg (done ++ [block.hash]) := by
  rw [Dag.lastSettlement_concat, ← hdone, ← Dag.foldl_carry]
  exact congrArg ChainBlockMetadata.lastSettlement h.2

/-- The last settlement follows the chain, from a block where it does. -/
theorem settled_along {start : Nat × ChainBlockMetadata} {done : List Hash}
    (hdone : start.2.lastSettlement = dag.lastSettlement L cfg done) {nodes : List (Nat × ChainBlockMetadata)}
    (hlinked : List.IsChain (fun a b => Linked L cfg dag a.2 b.2) (start :: nodes))
    {before after : List (Nat × ChainBlockMetadata)} {node : Nat × ChainBlockMetadata}
    (hnodes : nodes = before ++ node :: after) :
    node.2.lastSettlement =
      dag.lastSettlement L cfg (done ++ (before ++ [node]).map fun node => node.2.hash) := by
  induction before generalizing start done nodes with
  | nil =>
    rw [hnodes] at hlinked
    exact lastSettlement_of_linked (List.isChain_cons_cons.mp hlinked).1 hdone
  | cons next before ih =>
    rw [hnodes, List.cons_append] at hlinked
    have ⟨hlink, hrest⟩ := List.isChain_cons_cons.mp hlinked
    have hlast := ih (lastSettlement_of_linked hlink hdone) hrest rfl
    rwa [List.append_assoc] at hlast

theorem Inv.mirrors (h : s.Inv L cfg dag) : s.Mirrors L cfg dag := by
  have ⟨p, log, ids, htracks⟩ := h.tracks
  have ⟨bound, hbound, hfollows⟩ := htracks.follows
  -- the branch with its blocks
  let block : Nat → ChainBlockMetadata := fun id => log[id]?.getD s.worker.genesis
  have hblock : ∀ {id m}, log[id]? = some m → block id = m := fun hm => by
    change log[_]?.getD _ = _
    rw [hm]
    rfl
  have hroot : (0, s.worker.genesis) :: ids.map (fun id => (id, block id)) =
      (0 :: ids).map fun id => (id, block id) := by
    rw [List.map_cons, hblock htracks.root]
  have hfst : (ids.map fun id => (id, block id)).map Prod.fst = ids := by
    rw [List.map_map]
    exact List.map_id ids
  have hlinked : List.IsChain (fun a b => a.1 < b.1 ∧ b.2.parentId = a.1 ∧ Linked L cfg dag a.2 b.2)
      ((0, s.worker.genesis) :: ids.map fun id => (id, block id)) := by
    rw [hroot, List.isChain_map]
    refine List.IsChain.imp (fun a b hedge => ?_) (htracks.tree.branch.linked htracks.tree.grown)
    have ⟨hlt, x, y, hx, hy, hparent, hlink⟩ := hedge
    rw [hblock hx, hblock hy]
    exact ⟨hlt, hparent, hlink⟩
  refine ⟨ids.map fun id => (id, block id), h.selected, h.followed, h.complete, ?_, fun id hid => ?_, ?_, ?_, ?_, ?_⟩
  · refine List.map_injective_iff.mpr (Option.some_injective Hash) ?_
    rw [← htracks.hashes, List.map_map, List.map_map]
    refine List.map_congr_left fun id hid => ?_
    have hget := List.getElem?_eq_getElem (htracks.tree.branch.lt_length hid)
    change some (block id).hash = _
    rw [hblock hget, hget]
    rfl
  · rw [hfst, hfollows.agrees.isCanonical (Nat.le_trans hbound (hfollows.base ▸ hid)), htracks.tree.chain]
    exact decide_eq_decide.mpr List.mem_toFinset
  · rw [hfst]
    exact htracks.sink_tip
  · intro node hnode hbase
    have ⟨id, hid, heq⟩ := List.mem_map.mp hnode
    have hget := List.getElem?_eq_getElem (htracks.tree.branch.lt_length hid)
    subst heq
    rw [hfollows.base] at hbase
    dsimp only
    rw [hblock hget]
    exact ⟨(htracks.sink_metadata hbase).trans hget, (htracks.sink_index _ id).mpr ⟨hbase, _, hget, rfl⟩⟩
  · refine List.IsChain.imp (fun a b hedge => ?_) hlinked
    have ⟨hlt, hparent, hlink⟩ := hedge
    exact ⟨hlt, hparent, by rw [hlink.2]; rfl, by rw [hlink.2]; rfl, by rw [hlink.2]; rfl, by rw [hlink.2]; rfl⟩
  · intro before node after hnodes
    have hseed : s.worker.genesis.lastSettlement = dag.lastSettlement L cfg [] := h.seed
    have hlinks := List.IsChain.imp (fun _ _ hedge => hedge.2.2) hlinked
    have hsettled := settled_along hseed hlinks hnodes
    rwa [List.nil_append] at hsettled

/-- In a mirror that has dropped nothing, the sink calls every block of the chain canonical. -/
theorem Mirrors.isCanonical (h : s.Mirrors L cfg dag) (hbase : s.worker.sink.base = 1) {hash : Hash}
    (hmem : hash ∈ s.chain) : ∃ id, s.worker.sink.index hash = some id ∧
      s.worker.sink.chain.isCanonical s.worker.sink.chain.snapshot id = true := by
  have ⟨nodes, hnodes⟩ := h
  rw [← hnodes.hashes] at hmem
  have ⟨node, hnode, hhash⟩ := List.mem_map.mp hmem
  have hascending : List.IsChain (fun a b => a < b) (((0, s.worker.genesis) :: nodes).map Prod.fst) :=
    (List.isChain_map Prod.fst).mpr (List.IsChain.imp (fun _ _ hthreads => hthreads.ascending) hnodes.threads)
  have hpos : 0 < node.1 := (List.pairwise_cons.mp (List.isChain_iff_pairwise.mp hascending)).1 node.1
    (List.mem_map_of_mem hnode)
  have hlive : s.worker.sink.base ≤ node.1 := hbase ▸ hpos
  refine ⟨node.1, hhash ▸ (hnodes.logged node hnode hlive).2, ?_⟩
  rw [hnodes.canonical node.1 hlive]
  exact decide_eq_true (List.mem_map_of_mem hnode)

/-- In every run of consistent responses in which returning blocks stay in the bucket of
the highest id, no call panics and the sink mirrors the selected chain after each. -/
theorem mirrors_selected_chain (debug : Bool) (header : RpcHeader) {events : List (Event R)}
    (h : Along (step L cfg debug) (fun s e => s.Consistent L dag e ∧ s.Forward L e) (start header) events) :
    ∃ s, run (step L cfg debug) (start header) events = some s ∧ s.Mirrors L cfg dag := by
  have ⟨s, hrun, hinv⟩ := exists_run
    (fun hinv hstep => step_inv debug hinv hstep.1 hstep.2) (inv_start header) h
  exact ⟨s, hrun, hinv.mirrors⟩

end Session

/-! ### Blocks that return -/

namespace Sample

def hashOf (n : Nat) : Hash := ⟨UInt8.ofNat n :: List.replicate 31 0, rfl⟩

/-- Every block is built on the one numbered before it, but for a rival of that one. -/
def blocks (rival : Nat) : Dag := fun hash =>
  let n := (hash.val.headD 0).toNat
  ⟨hashOf (if n = rival then n - 2 else n - 1), 0, 0, 0, zeroHash, []⟩

def lib : L1Lib Unit where
  seq := ⟨fun _ => zeroHash, fun _ _ _ => none⟩
  laneKey _ := zeroHash
  txId _ := zeroHash
  parseScript _ := none
  tryFrom _ := .error "missing version"

def config : L1BridgeConfig := { finalityDepth := 10 }

def seed : RpcHeader := ⟨hashOf 0, 0, 0, 0, zeroHash⟩

def chainBlock (n : Nat) (txs : List Unit) (counted : txs.length < 2 ^ 32 := by decide) : RpcChainBlock Unit :=
  ⟨⟨some (hashOf n), some 0, some 0, some 0, some zeroHash⟩, txs, counted⟩

def update (removed added : List Nat) (kept : Nat) : Event Unit :=
  .fetch (.ok ⟨removed.map hashOf, added.map (chainBlock · [])⟩) kept (added.map hashOf)

/-- Block 3 gives way to its rival and returns, then the rival does; the block after it is malformed. -/
def shortFlip : List (Event Unit) :=
  [update [] [1, 2, 3] 0, update [3] [4] 2, update [4] [3] 2, .finalization (hashOf 2) 2,
    .fetch (.ok ⟨[hashOf 3], [chainBlock 4 [], chainBlock 5 [()]]⟩) 2 [hashOf 4, hashOf 5]]

/-- The last block of the first bucket gives way to its rival and returns. -/
def flip : List (Event Unit) :=
  [update [] (List.range' 1 128) 0, update [128] [129] 127, update [129] [128] 127]

end Sample

open Sample Session

theorem mirrors_shortFlip : ∃ s, run (step lib config true) (start seed) shortFlip = some s ∧
    s.Mirrors lib config (blocks 4) :=
  mirrors_selected_chain true seed (by decide +kernel)

/-- With debug assertions the return panics. Without them the sink loses the first block. -/
theorem flip_breaks_mirror :
    (∀ debug, Along (step lib config debug) (fun s e => s.Consistent lib (blocks 129) e) (start seed) Sample.flip) ∧
      (run (step lib config true) (start seed) Sample.flip).isNone = true ∧
      ∃ s, run (step lib config false) (start seed) Sample.flip = some s ∧ ¬ s.Mirrors lib config (blocks 129) := by
  have hruns : (∀ debug, Along (step lib config debug) (fun s e => s.Consistent lib (blocks 129) e) (start seed)
        Sample.flip) ∧
      (run (step lib config true) (start seed) Sample.flip).isNone = true ∧
      ((run (step lib config false) (start seed) Sample.flip).map fun s => decide
        (hashOf 1 ∈ s.chain ∧ s.worker.sink.base = 1 ∧ ∀ id ∈ s.worker.sink.index (hashOf 1),
          s.worker.sink.chain.isCanonical s.worker.sink.chain.snapshot id = false)) = some true := by
    decide +kernel
  have ⟨hconsistent, hpanics, hrun⟩ := hruns
  have ⟨s, hs, hlost⟩ := Option.map_eq_some_iff.mp hrun
  have ⟨hmem, hbase, hlost⟩ := of_decide_eq_true hlost
  refine ⟨hconsistent, hpanics, s, hs, fun hmirrors => ?_⟩
  have ⟨id, hindex, hcanonical⟩ := hmirrors.isCanonical hbase hmem
  rw [hlost id hindex] at hcanonical
  cases hcanonical

end Vprogs.Bridge
