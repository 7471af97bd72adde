import Vprogs.Smt.Pruning

/-!
Pruning a stored history. Over updates that keep every node position, each stale
marker points at a version with a stored successor. Deleting the marked nodes then
changes no read at or after the pruned versions. Later updates leave those markers
and nodes alone, so they only have to keep the tree itself in order.
-/
namespace Vprogs.Smt

namespace SmtStore

variable {D : Type}

/-! ### Markers -/

theorem stale_apply {s : SmtStore D} {wb : WriteBatch D} {raw : Arr 42} {val : Arr 8}
    (h : (s.apply wb).stale.get raw = some val) :
    s.stale.get raw = some val ∨
      ∃ st, .putStaleNode st ∈ wb ∧ raw = st.encodeKey ∧ val = st.encodeValue := by
  induction wb using List.reverseRecOn with
  | nil => exact .inl h
  | append_singleton wb w ih =>
    have earlier : (s.apply wb).stale.get raw = some val → s.stale.get raw = some val ∨
        ∃ st, .putStaleNode st ∈ wb ++ [w] ∧ raw = st.encodeKey ∧ val = st.encodeValue := fun h =>
      (ih h).imp_right fun h => h.imp fun st h => ⟨List.mem_append_left [w] h.1, h.2⟩
    have happly : s.apply (wb ++ [w]) = (s.apply wb).write w := by simp [apply]
    rw [happly] at h
    cases w with
    | putNode _ _ _ => exact earlier h
    | putStaleNode st =>
      change ((s.apply wb).stale.put st.encodeKey st.encodeValue).get raw = some val at h
      rw [Column.get_put] at h
      split at h
      · next heq =>
        cases h
        exact .inr ⟨st, by simp, heq, rfl⟩
      · exact earlier h

/-- Markers name nodes that have a stored successor, and only the root position
holds tombstones. -/
structure Linear (s : SmtStore D) (last : Nat) : Prop where
  marker : ∀ raw val, s.stale.get raw = some val → ∃ st : StaleNode,
    raw = st.encodeKey ∧ val = st.encodeValue ∧ st.key.level ≤ 256 ∧
      st.version < st.staleSinceVersion ∧ st.staleSinceVersion ≤ last ∧
      s.history st.key st.staleSinceVersion ≠ none
  clean : ∀ key u, 0 < key.level → key.level ≤ 256 → u < 2 ^ 64 → s.history key u ≠ some .empty

theorem linear_empty : Linear ({} : SmtStore D) 0 := by
  refine ⟨fun raw val h => ?_, fun key u _ _ _ h => ?_⟩
  · cases h
  · cases h

/-- Of the markers up to version `v` each names a node that has a stored successor. -/
structure Backed (s : SmtStore D) (last v : Nat) : Prop where
  marker : ∀ raw val, s.stale.get raw = some val → ∃ st : StaleNode,
    raw = st.encodeKey ∧ val = st.encodeValue ∧ st.key.level ≤ 256 ∧
      st.staleSinceVersion ≤ last ∧ (st.staleSinceVersion ≤ v →
        st.version < st.staleSinceVersion ∧ s.history st.key st.staleSinceVersion ≠ none)

theorem Linear.backed {s : SmtStore D} {last : Nat} (h : Linear s last) (v : Nat) : Backed s last v := by
  refine ⟨fun raw val hget => ?_⟩
  obtain ⟨st, hraw, hval, hlevel, hlt, hle, hlive⟩ := h.marker raw val hget
  exact ⟨st, hraw, hval, hlevel, hle, fun _ => ⟨hlt, hlive⟩⟩

theorem Backed.later {s : SmtStore D} {last w v : Nat} (h : Backed s last v) (hw : last ≤ w) :
    Backed s w v := by
  refine ⟨fun raw val hget => ?_⟩
  obtain ⟨st, hraw, hval, hlevel, hle, hlive⟩ := h.marker raw val hget
  exact ⟨st, hraw, hval, hlevel, by omega, hlive⟩

theorem Linear.later {s : SmtStore D} {last w : Nat} (h : Linear s last) (hw : last ≤ w) : Linear s w where
  marker raw val hget := by
    have ⟨st, hraw, hval, hlevel, hlt, hle, hlive⟩ := h.marker raw val hget
    exact ⟨st, hraw, hval, hlevel, hlt, by omega, hlive⟩
  clean := h.clean

theorem Linear.node_ne_empty {s : SmtStore D} {last w : Nat} (h : Linear s last) (hw : w < 2 ^ 64)
    (visible : Nat → Bool) (key : NodeKey) (v : Nat) (hpos : 0 < key.level) (hkey : key.level ≤ 256) :
    s.node visible w key ≠ some (v, .empty) := by
  intro hread
  rw [node_eq_latest _ _ hw, latest_eq_some] at hread
  have ⟨hle, hseen, _⟩ := hread
  unfold seen at hseen
  split at hseen
  · exact h.clean key v hpos hkey (by omega) hseen
  · cases hseen

section Update

variable [DecidableEq D] {H : Hasher D} {visible : Nat → Bool} {s s' : SmtStore D} {S : StateMap H}
  {last version : Nat}

/-- An update that keeps every node position backs its markers. -/
theorem Linear.update (lin : Linear s last) (h : Holds H visible s last S) (hlast : last < version)
    (hv : version < 2 ^ 64) {cs : List (Commitment D)} {r : D}
    (fills : Fills DEPTH S.entries (S.setAll cs).entries)
    (hupdate : s.update H visible cs version = .ok (r, s')) : Linear s' version := by
  have before := h.later (show last ≤ version - 1 by omega) (by omega)
  have positive : decide (0 < version) = true := decide_eq_true (by omega)
  have ⟨⟨root, wb⟩, htree, hret⟩ := ok_bind_iff.mp hupdate
  have hs' : s.apply wb = s' := (Prod.mk.inj (Except.ok.inj hret)).2
  subst hs'
  match cs, fills with
  | [], _ =>
    unfold Tree.update at htree
    rw [positive] at htree
    have hwb : wb = [] := (Prod.mk.inj (Except.ok.inj htree)).2.symm
    rw [hwb]
    exact lin.later (by omega)
  | c :: cs, fills =>
    have ⟨ws, happly, hwrites⟩ := Tree.apply_eq before.stored (c :: cs) version
    unfold Tree.update at htree
    rw [positive] at htree
    have hwb := (Prod.mk.inj (Except.ok.inj (happly.symm.trans htree))).2
    have marked := hwrites.marked rfl
      (fun k v hpos hkey => lin.node_ne_empty (by omega) visible k v hpos hkey)
      before.stored S.segment (fills.perm (Updater.applyUpdates_dedupLast_perm S (c :: cs)).symm)
    have hat : ∀ w ∈ wb, w.At version := by
      intro w hw
      rw [← hwb] at hw
      match List.mem_append.mp hw with
      | .inl h => exact (hwrites.inside rfl w h).at
      | .inr h => exact (List.mem_singleton.mp h) ▸ ⟨rfl, Nat.zero_le _⟩
    refine ⟨fun raw val hget => ?_, fun key u hpos hkey hu => ?_⟩
    · match stale_apply hget with
      | .inl hold =>
        have ⟨st, hraw, hval, hlevel, hlt, hle, hlive⟩ := lin.marker raw val hold
        have hne : st.staleSinceVersion ≠ version := by omega
        refine ⟨st, hraw, hval, hlevel, hlt, by omega, ?_⟩
        rwa [history_apply s hv hat hlevel (by omega), if_neg hne]
      | .inr ⟨st, hst, hraw, hval⟩ =>
        have ⟨hsince, hlevel⟩ := hat _ hst
        have hold : .putStaleNode st ∈ ws := by
          rw [← hwb] at hst
          simpa using hst
        have ⟨n, hread⟩ := marked.read st hold
        change s.node visible (version - 1) st.key = _ at hread
        rw [node_eq_latest _ _ (by omega), latest_eq_some] at hread
        refine ⟨st, hraw, hval, hlevel, by omega, by omega, ?_⟩
        have hput : ∃ v n, SmtWrite.putNode st.key v n ∈ wb := by
          rw [← hwb]
          match marked.placed st hold with
          | .inl hroot => exact ⟨_, _, List.mem_append_right _ (by rw [hroot]; exact List.mem_singleton.mpr rfl)⟩
          | .inr ⟨v, n, hput⟩ => exact ⟨v, n, List.mem_append_left _ hput⟩
        rw [hsince, history_apply s hv hat hlevel hv, if_pos rfl]
        match hn : nodeAt wb st.key with
        | some m => simp
        | none =>
          have ⟨v, n, hput⟩ := hput
          exact absurd hput (nodeAt_eq_none.mp hn v n)
    · rw [history_apply s hv hat hkey hu]
      split
      · match hn : nodeAt wb key with
        | none =>
          rw [Option.none_or]
          exact lin.clean key u hpos hkey hu
        | some n =>
          rw [Option.some_or]
          intro heq
          have ⟨v, hput⟩ : ∃ v, SmtWrite.putNode key v n ∈ wb := nodeAt_eq_some hn
          rw [← hwb] at hput
          match List.mem_append.mp hput with
          | .inl hput => exact marked.alive key v n hput (Option.some.inj heq)
          | .inr hput =>
            cases List.mem_singleton.mp hput
            exact absurd hpos (Nat.lt_irrefl 0)
      · exact lin.clean key u hpos hkey hu

/-- An update after `v` leaves the markers up to `v` and the nodes they need alone. -/
theorem Backed.update {v : Nat} (b : Backed s last v) (h : Holds H visible s last S)
    (hlast : last < version) (hv : version < 2 ^ 64) (after : v < version)
    {cs : List (Commitment D)} {r : D} (hupdate : s.update H visible cs version = .ok (r, s')) :
    Backed s' version v := by
  have before := h.later (show last ≤ version - 1 by omega) (by omega)
  have positive : decide (0 < version) = true := decide_eq_true (by omega)
  obtain ⟨⟨root, wb⟩, htree, hret⟩ := ok_bind_iff.mp hupdate
  obtain rfl : s.apply wb = s' := (Prod.mk.inj (Except.ok.inj hret)).2
  have hat : ∀ w ∈ wb, w.At version := by
    unfold Tree.update at htree
    rw [positive] at htree
    cases cs with
    | nil =>
      have hwb : wb = [] := (Prod.mk.inj (Except.ok.inj htree)).2.symm
      simp [hwb]
    | cons c cs =>
      obtain ⟨ws, happly, hwrites⟩ := Tree.apply_eq before.stored (c :: cs) version
      have hwb := (Prod.mk.inj (Except.ok.inj (happly.symm.trans htree))).2
      intro w hw
      rw [← hwb] at hw
      rcases List.mem_append.mp hw with h | h
      · exact (hwrites.inside rfl w h).at
      · exact (List.mem_singleton.mp h) ▸ ⟨rfl, Nat.zero_le _⟩
  refine ⟨fun raw val hget => ?_⟩
  rcases stale_apply hget with hold | ⟨st, hst, hraw, hval⟩
  · obtain ⟨st, hraw, hval, hlevel, hle, hlive⟩ := b.marker raw val hold
    refine ⟨st, hraw, hval, hlevel, by omega, fun hle => ⟨(hlive hle).1, ?_⟩⟩
    rw [history_apply s hv hat hlevel (by omega), if_neg (by omega)]
    exact (hlive hle).2
  · obtain ⟨hsince, hlevel⟩ := hat _ hst
    exact ⟨st, hraw, hval, hlevel, by omega, fun hle => by omega⟩

/-- A run whose updates up to `v` keep every node position, and whose later ones keep the
tree in order. -/
theorem Backed.run {v : Nat} (b : Backed s last v) (lin : last < v → Linear s last)
    (h : Holds H visible s last S) {updates : List (Nat × List (Commitment D))}
    (ascending : Ascending visible last updates)
    (keeps : ∀ pre u post, updates = pre ++ u :: post → u.1 ≤ v →
      (pre.foldl (fun S u => S.setAll u.2) S).KeepsNodes
        ((pre ++ [u]).foldl (fun S u => S.setAll u.2) S))
    (pairs : ∀ pre u post, updates = pre ++ u :: post → v < u.1 →
      (pre.foldl (fun S u => S.setAll u.2) S).KeepsPairs
        ((pre ++ [u]).foldl (fun S u => S.setAll u.2) S)) :
    ∃ roots s', SmtStore.run H visible updates s = .ok (roots, s') ∧
      Backed s' ((updates.map Prod.fst).getLastD last) v := by
  induction updates generalizing s S last with
  | nil => exact ⟨[], s, rfl, b⟩
  | cons u updates ih =>
    obtain ⟨order, fits⟩ := ascending
    rw [List.map_cons, List.pairwise_cons] at order
    have hu := fits u List.mem_cons_self
    have hlast : last < u.1 := order.1 u.1 List.mem_cons_self
    obtain ⟨s₁, hupdate, h₁, b₁, lin₁⟩ : ∃ s₁,
        s.update H visible u.2 u.1 = .ok ((S.setAll u.2).root, s₁) ∧
        Holds H visible s₁ u.1 (S.setAll u.2) ∧ Backed s₁ u.1 v ∧ (u.1 < v → Linear s₁ u.1) := by
      by_cases early : u.1 ≤ v
      · have fills := (keeps [] u updates rfl early).fills
        obtain ⟨s₁, hupdate, h₁, _⟩ := h.update hlast hu.1 hu.2 u.2 (fills.keeps S.segment)
        have lin₁ := (lin (by omega)).update h hlast hu.1 fills hupdate
        exact ⟨s₁, hupdate, h₁, lin₁.backed v, fun _ => lin₁⟩
      · obtain ⟨s₁, hupdate, h₁, _⟩ := h.update hlast hu.1 hu.2 u.2
          (pairs [] u updates rfl (by omega)).keeps
        exact ⟨s₁, hupdate, h₁, b.update h hlast hu.1 (by omega) hupdate, fun _ => by omega⟩
    obtain ⟨roots, s', hrun, hb⟩ := ih b₁ lin₁ h₁
      ⟨order.2, fun u' hu' => fits u' (List.mem_cons_of_mem _ hu')⟩
      (fun pre u' post heq => keeps (u :: pre) u' post (by rw [heq]; rfl))
      (fun pre u' post heq => pairs (u :: pre) u' post (by rw [heq]; rfl))
    refine ⟨(S.setAll u.2).root :: roots, s', ?_, by rw [List.map_cons, List.getLastD_cons]; exact hb⟩
    rw [SmtStore.run, hupdate, ok_bind]
    dsimp only
    rw [hrun]
    rfl

end Update

/-! ### Pruning -/

theorem markers_spec (version : Nat) (ms : List (Arr 42 × Arr 8)) (s : SmtStore D) :
    (∀ key x, (ms.foldl (pruneMarker version) s).history key x = s.history key x ∨
      (ms.foldl (pruneMarker version) s).history key x = none ∧ ∃ m ∈ ms,
        key.encodeWithVersion x =
          (StaleNode.decodeKey m.1).encodeWithVersion (StaleNode.decodeValue m.2)) ∧
    ∀ raw val, (ms.foldl (pruneMarker version) s).stale.get raw = some val →
      s.stale.get raw = some val := by
  induction ms generalizing s with
  | nil => exact ⟨fun _ _ => .inl rfl, fun _ _ h => h⟩
  | cons m ms ih =>
    have ⟨hnodes, hstale⟩ := ih (pruneMarker version s m)
    refine ⟨fun key x => ?_, fun raw val h => ?_⟩
    · rw [List.foldl_cons]
      match hnodes key x with
      | .inr ⟨hnone, m', hm', heq⟩ => exact .inr ⟨hnone, m', List.mem_cons_of_mem _ hm', heq⟩
      | .inl hsame =>
        rw [hsame, history, pruneMarker, Column.get_delete]
        split
        · next heq => exact .inr ⟨rfl, m, List.mem_cons_self, heq⟩
        · exact .inl rfl
    · have := hstale raw val h
      rw [pruneMarker, Column.get_delete] at this
      split at this
      · cases this
      · exact this

/-- `Tree::prune(1)`, ..., `Tree::prune(v)`. -/
def pruneUpTo (s : SmtStore D) : Nat → SmtStore D
  | 0 => s
  | v + 1 => (s.pruneUpTo v).prune (v + 1)

section Pruned

variable {s : SmtStore D} {last bound v : Nat}

/-- What pruning removes at a position has a successor there. -/
theorem Backed.pruneUpTo (b : Backed s last bound) (hlast : last < 2 ^ 64) (hb : bound ≤ last)
    (hv : v ≤ bound) : (∀ key x, x < 2 ^ 64 → (s.pruneUpTo v).history key x = s.history key x ∨
      (s.pruneUpTo v).history key x = none ∧ ∃ x', x < x' ∧ x' ≤ v ∧ s.history key x' ≠ none) ∧
    ∀ raw val, (s.pruneUpTo v).stale.get raw = some val → s.stale.get raw = some val := by
  induction v with
  | zero => exact ⟨fun _ _ _ => .inl rfl, fun _ _ h => h⟩
  | succ v ih =>
    have ⟨hnodes, hstale⟩ := ih (by omega)
    have ⟨hstep, hstale'⟩ := markers_spec (v + 1) ((s.pruneUpTo v).markers (v + 1)) (s.pruneUpTo v)
    refine ⟨fun key x hx => ?_, fun raw val h => hstale raw val (hstale' raw val h)⟩
    match hstep key x with
    | .inl hsame =>
      rw [SmtStore.pruneUpTo, prune, hsame]
      exact (hnodes key x hx).imp_right fun ⟨hnone, x', hlt, hle, hlive⟩ =>
        ⟨hnone, x', hlt, by omega, hlive⟩
    | .inr ⟨hnone, m, hm, heq⟩ =>
      rw [SmtStore.pruneUpTo, prune]
      have ⟨hlead, hget⟩ := Column.mem_scan.mp hm
      have ⟨st, hraw, hval, hlevel, hle, hlive⟩ := b.marker m.1 m.2 (hstale _ _ hget)
      have hsince : st.staleSinceVersion = v + 1 := by
        rw [hraw, beq_iff_eq] at hlead
        have htake : st.encodeKey.val.take 8 = beBytes 8 st.staleSinceVersion :=
          List.take_left' (length_beBytes _ _)
        rw [htake] at hlead
        exact beBytes_injective (by omega) (by omega) hlead
      obtain ⟨hlt, hlive⟩ := hlive (by omega)
      rw [hraw, hval, StaleNode.decodeKey_encodeKey hlevel,
        StaleNode.decodeValue_encodeValue (by omega)] at heq
      have bytes : key.encode ++ beBytes 8 (2 ^ 64 - 1 - x) =
          st.key.encode ++ beBytes 8 (2 ^ 64 - 1 - st.version) := congrArg Subtype.val heq
      have hposition : key.encode = st.key.encode := List.append_inj_left bytes (by simp)
      have hversion : x = st.version := by
        rw [← NodeKey.decodeVersion_encodeWithVersion key hx, heq,
          NodeKey.decodeVersion_encodeWithVersion st.key (by omega)]
      refine .inr ⟨hnone, v + 1, by omega, Nat.le_refl _, ?_⟩
      have same : key.encodeWithVersion (v + 1) = st.key.encodeWithVersion (v + 1) :=
        Arr.ext (congrArg (· ++ beBytes 8 (2 ^ 64 - 1 - (v + 1))) hposition)
      rw [history, same, ← hsince]
      exact hlive

/-- Reads at the surviving versions are unchanged. -/
theorem Backed.node_pruneUpTo (b : Backed s last v) (hlast : last < 2 ^ 64) {visible : Nat → Bool}
    (hvis : ∀ u, 0 < u → u ≤ last → visible u = true) {w : Nat} (hv : v ≤ w) (hw : w ≤ last) :
    (s.pruneUpTo v).node visible w = s.node visible w := by
  funext key
  rw [node_eq_latest _ _ (by omega), node_eq_latest _ _ (by omega)]
  have ⟨hnodes, _⟩ := b.pruneUpTo hlast (show v ≤ last by omega) (Nat.le_refl _)
  refine latest_eq_of_superseded (fun u hu => ?_) (fun u hu hne => ?_)
  · unfold seen
    split
    · exact (hnodes key u (by omega)).imp_right And.left
    · exact .inl rfl
  · unfold seen at hne
    split at hne
    · match hnodes key u (by omega) with
      | .inl hsame => exact absurd hsame hne
      | .inr ⟨_, u', hlt, hle, hlive⟩ =>
        exact ⟨u', hlt, by omega, by rwa [seen, if_pos (hvis u' (by omega) (by omega))]⟩
    · exact absurd rfl hne

end Pruned

end SmtStore

/-! ### The whole history -/

section

variable {H : Hasher Digest} {visible : Nat → Bool}

/-- Pruning versions `1` to `v` is not noticed at version `w`, nor by an update after
`n`. -/
def Unnoticed (H : Hasher Digest) (visible : Nat → Bool) (s : SmtStore Digest) (n v w : Nat) : Prop :=
  (s.pruneUpTo v).root H visible w = s.root H visible w ∧
  (∀ keys, Tree.proveBytes H ((s.pruneUpTo v).node visible w) keys =
    Tree.proveBytes H (s.node visible w) keys) ∧
  ∀ cs, Tree.update H ((s.pruneUpTo v).node visible n) cs (n + 1) =
    Tree.update H (s.node visible n) cs (n + 1)

/-- A run at versions `1` to `n` can be pruned up to `v` if its updates up to `v` leave a key
at every node position other than the root, and the later ones leave two keys under every
bit prefix that two shared. -/
theorem prune_unnoticed {updates : List (Nat × List (Commitment Digest))} {n v w : Nat}
    (versions : updates.map Prod.fst = List.range' 1 n) (hn : n < 2 ^ 64)
    (hvis : ∀ u, 0 < u → u ≤ n → visible u = true)
    (keeps : ∀ pre u post, updates = pre ++ u :: post → u.1 ≤ v →
      (mapAfter H pre).KeepsNodes (mapAfter H (pre ++ [u])))
    (pairs : ∀ pre u post, updates = pre ++ u :: post → v < u.1 →
      (mapAfter H pre).KeepsPairs (mapAfter H (pre ++ [u])))
    (hv : v ≤ w) (hw : w ≤ n) :
    ∃ roots s, SmtStore.run H visible updates {} = .ok (roots, s) ∧ Unnoticed H visible s n v w := by
  have fits : ∀ u ∈ updates, 0 < u.1 ∧ u.1 ≤ n := by
    intro u hu
    have : u.1 ∈ List.range' 1 n := versions ▸ List.mem_map_of_mem hu
    rw [List.mem_range'_1] at this
    omega
  have ascending : Ascending visible 0 updates := by
    refine ⟨?_, fun u hu => ⟨by have := (fits u hu).2; omega, hvis u.1 (fits u hu).1 (fits u hu).2⟩⟩
    rw [versions]
    exact List.pairwise_cons.mpr ⟨fun u hu => by
      rw [List.mem_range'_1] at hu
      omega, List.pairwise_lt_range'⟩
  have ⟨roots, s, hrun, hb⟩ := (SmtStore.linear_empty.backed v).run (fun _ => SmtStore.linear_empty)
    (SmtStore.holds_empty H visible) ascending keeps pairs
  have backed : s.Backed n v := by
    refine hb.later ?_
    rw [versions]
    match n with
    | 0 => exact Nat.le_refl _
    | n + 1 =>
      rw [List.range'_concat]
      simp [Nat.add_comm]
  have same : ∀ w', v ≤ w' → w' ≤ n → (s.pruneUpTo v).node visible w' = s.node visible w' :=
    fun w' hv hw => backed.node_pruneUpTo hn hvis hv hw
  refine ⟨roots, s, hrun, ?_, fun keys => by rw [same w hv hw],
    fun cs => by rw [same n (by omega) (Nat.le_refl _)]⟩
  rw [SmtStore.root, SmtStore.root, same w hv hw]

end

def digest (b : UInt8) : Digest := Arr.fill b

/-- One key on the left, two on the right, then an overwrite on the left. -/
def leftOverwritten : List (Nat × List (Commitment Digest)) :=
  [(1, [(0, digest 7), (1 <<< 255, digest 8), (3 <<< 254, digest 9)]), (2, [(0, digest 6)])]

/-- Then the left key is deleted, after the versions to be pruned. -/
def leftDropped : List (Nat × List (Commitment Digest)) :=
  leftOverwritten ++ [(3, [(0, digest 0)])]

/-- Only the empty prefix is shared by the left key and another one, and the right keys
still share it. -/
theorem leftDropped_keepsPairs :
    (mapAfter constHasher leftOverwritten).KeepsPairs (mapAfter constHasher leftDropped) := by
  have before : (mapAfter constHasher leftOverwritten).entries =
      (0, digest 6) :: (mapAfter constHasher leftDropped).entries := by decide +kernel
  have right : ∀ e ∈ (mapAfter constHasher leftDropped).entries, e.1.getMsb 0 = true := by
    decide +kernel
  intro k bits two
  rw [StateMap.sharing, before] at two
  rw [StateMap.sharing]
  by_cases left : k.sharesPrefix 0 bits = true
  · rcases Nat.eq_zero_or_pos bits with rfl | hbits
    · have all : ∀ k' : Key, k.sharesPrefix k' 0 = true := fun k' =>
        (Key.sharesPrefix_iff _ _ _).mpr ⟨Nat.zero_le _, fun i hi => absurd hi (Nat.not_lt_zero i)⟩
      rw [List.filter_eq_self.mpr fun e _ => all e.1]
      decide +kernel
    · have none : (mapAfter constHasher leftDropped).entries.filter
          (fun e => k.sharesPrefix e.1 bits) = [] := by
        refine List.filter_eq_nil_iff.mpr fun e he shared => ?_
        have agree := ((Key.sharesPrefix_iff _ _ _).mp left).2 0 hbits
        rw [((Key.sharesPrefix_iff _ _ _).mp shared).2 0 hbits, right e he] at agree
        exact absurd agree (by decide)
      rw [List.filter_cons_of_pos (by simpa using left), none] at two
      exact absurd two (by simp)
  · rwa [List.filter_cons_of_neg (by simpa using left)] at two

theorem leftDropped_unnoticed :
    ∃ roots s, SmtStore.run constHasher (fun _ => true) leftDropped {} = .ok (roots, s) ∧
      Unnoticed constHasher (fun _ => true) s 3 2 3 := by
  refine prune_unnoticed (by decide) (by decide) (fun _ _ _ => rfl) (fun pre u post heq early => ?_)
    (fun pre u post heq late => ?_) (by decide) (Nat.le_refl _)
  · rcases pre with _ | ⟨_, _ | ⟨_, _ | ⟨_, _⟩⟩⟩
    · exact .of_keys (by simp [mapAfter, StateMap.empty])
    · cases heq
      exact .of_keys (by decide +kernel)
    · cases heq
      exact absurd early (by decide)
    · simp [leftDropped, leftOverwritten] at heq
  · rcases pre with _ | ⟨_, _ | ⟨_, _ | ⟨_, _⟩⟩⟩
    · cases heq
      exact absurd late (by decide)
    · cases heq
      exact absurd late (by decide)
    · cases heq
      exact leftDropped_keepsPairs
    · simp [leftDropped, leftOverwritten] at heq

/-- The same keys; the left one is deleted, which tombstones its position. -/
def leftDeleted : List (Nat × List (Commitment Digest)) :=
  [(1, [(0, digest 7), (1 <<< 255, digest 8), (3 <<< 254, digest 9)]), (2, [(0, digest 0)])]

def leftDeletedStore : List Digest × SmtStore Digest :=
  match SmtStore.run constHasher (fun _ => true) leftDeleted ⟨.empty, .empty⟩ with
  | .ok r => r
  | .error _ => ([], ⟨.empty, .empty⟩)

/-- The marker of the tombstone overwrites that of the deleted leaf, so pruning
version 2 deletes the tombstone and the leaf is proved again. -/
theorem pruned_leaf_resurfaces :
    leftDeleted.map Prod.fst = List.range' 1 2 ∧
      SmtStore.run constHasher (fun _ => true) leftDeleted {} = .ok leftDeletedStore ∧
      ¬Unnoticed constHasher (fun _ => true) leftDeletedStore.2 2 2 2 := by
  refine ⟨by decide, by decide +kernel, fun h => ?_⟩
  have differs : Tree.proveBytes constHasher
      ((leftDeletedStore.2.pruneUpTo 2).node (fun _ => true) 2) [0] ≠
      Tree.proveBytes constHasher (leftDeletedStore.2.node (fun _ => true) 2) [0] := by
    decide +kernel
  exact differs (h.2.1 [0])

end Vprogs.Smt
