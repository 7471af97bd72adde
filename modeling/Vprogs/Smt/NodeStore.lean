import Vprogs.Smt.Updater
import Vprogs.Storage.Column
import Vprogs.Storage.Versioned

/-!
The stored tree. Nodes sit in one column under their position and inverted
version, stale markers in another under the version that superseded a node and
the node's position. A read of a position sees its latest visible version.
-/
namespace Vprogs.Smt

/-! ### Keys of the two columns -/

namespace NodeKey

/-- Path and level, 34 bytes. -/
def encode (k : NodeKey) : Bytes := k.path.toBytes ++ beBytes 2 k.level

@[simp] theorem length_encode (k : NodeKey) : k.encode.length = 34 := by
  simp [encode, Key.toBytes]

/-- The inverted version sorts higher versions first. -/
def encodeWithVersion (k : NodeKey) (version : Nat) : Arr 42 :=
  ⟨k.encode ++ beBytes 8 (2 ^ 64 - 1 - version), by simp⟩

def decodeVersion (raw : Arr 42) : Nat := 2 ^ 64 - 1 - beNat (raw.val.drop 34)

def decode (raw : Bytes) : NodeKey :=
  ⟨beNat (raw.drop 32), BitVec.ofNat 256 (beNat (raw.take 32))⟩

theorem decode_encode {k : NodeKey} (h : k.level < 2 ^ 16) : decode k.encode = k := by
  have path : k.encode.take 32 = k.path.toBytes := List.take_left' (by simp [Key.toBytes])
  have level : k.encode.drop 32 = beBytes 2 k.level := List.drop_left' (by simp [Key.toBytes])
  have hpath : BitVec.ofNat 256 (beNat k.path.toBytes) = k.path :=
    Option.some.inj (Key.ofBytes_toBytes k.path)
  rw [decode, path, level, hpath, beNat_beBytes (by simpa using h)]

theorem encode_injective {k k' : NodeKey} (h : k.level < 2 ^ 16) (h' : k'.level < 2 ^ 16)
    (heq : k.encode = k'.encode) : k = k' := by
  rw [← decode_encode h, heq, decode_encode h']

theorem decodeVersion_encodeWithVersion (k : NodeKey) {v : Nat} (hv : v < 2 ^ 64) :
    decodeVersion (k.encodeWithVersion v) = v := by
  have suffix : (k.encodeWithVersion v).val.drop 34 = beBytes 8 (2 ^ 64 - 1 - v) :=
    List.drop_left' (length_encode k)
  rw [decodeVersion, suffix, beNat_beBytes (by omega)]
  omega

theorem encodeWithVersion_injective {k k' : NodeKey} {v v' : Nat} (h : k.level < 2 ^ 16)
    (h' : k'.level < 2 ^ 16) (hv : v < 2 ^ 64) (hv' : v' < 2 ^ 64)
    (heq : k.encodeWithVersion v = k'.encodeWithVersion v') : k = k' ∧ v = v' := by
  have bytes : k.encode ++ beBytes 8 (2 ^ 64 - 1 - v) = k'.encode ++ beBytes 8 (2 ^ 64 - 1 - v') :=
    congrArg Subtype.val heq
  refine ⟨encode_injective h h' (List.append_inj_left bytes (by simp)), ?_⟩
  rw [← decodeVersion_encodeWithVersion k hv, heq, decodeVersion_encodeWithVersion k' hv']

/-- A raw key with the position's prefix is one of its versions. -/
theorem encodeWithVersion_decodeVersion {k : NodeKey} {raw : Arr 42}
    (h : raw.val.take 34 = k.encode) : k.encodeWithVersion (decodeVersion raw) = raw := by
  have hlen : (raw.val.drop 34).length = 8 := by simp
  have hlt : beNat (raw.val.drop 34) < 2 ^ 64 := by
    have := beNat_lt (raw.val.drop 34)
    rwa [hlen] at this
  have suffix := beBytes_beNat (raw.val.drop 34)
  rw [hlen] at suffix
  have twice : 2 ^ 64 - 1 - decodeVersion raw = beNat (raw.val.drop 34) := by
    unfold decodeVersion
    omega
  refine Arr.ext ?_
  change k.encode ++ beBytes 8 (2 ^ 64 - 1 - decodeVersion raw) = raw.val
  rw [twice, suffix, ← h, List.take_append_drop]

/-- Among the versions of a position the raw order is the inverse of the order
of versions. -/
theorem encodeWithVersion_lt_iff (k : NodeKey) {v v' : Nat} (hv : v < 2 ^ 64) (hv' : v' < 2 ^ 64) :
    k.encodeWithVersion v < k.encodeWithVersion v' ↔ v' < v := by
  have prefixed : ∀ (p xs ys : Bytes), p ++ xs < p ++ ys ↔ xs < ys := by
    intro p xs ys
    induction p with
    | nil => rfl
    | cons b p ih =>
      rw [List.cons_append, List.cons_append, List.cons_lt_cons_iff, ih]
      simp
  change k.encode ++ _ < k.encode ++ _ ↔ _
  rw [prefixed, ← beNat_lt_beNat (by simp), beNat_beBytes (by omega), beNat_beBytes (by omega)]
  omega

end NodeKey

namespace StaleNode

def encodeKey (s : StaleNode) : Arr 42 :=
  ⟨beBytes 8 s.staleSinceVersion ++ s.key.encode, by simp⟩

def encodeValue (s : StaleNode) : Arr 8 := ⟨beBytes 8 s.version, by simp⟩

def decodeKey (raw : Arr 42) : NodeKey := NodeKey.decode (raw.val.drop 8)

def decodeValue (raw : Arr 8) : Nat := beNat raw.val

theorem decodeKey_encodeKey {s : StaleNode} (h : s.key.level ≤ 256) : decodeKey s.encodeKey = s.key := by
  have : s.encodeKey.val.drop 8 = s.key.encode := List.drop_left' (length_beBytes _ _)
  rw [decodeKey, this, NodeKey.decode_encode (by omega)]

theorem decodeValue_encodeValue {s : StaleNode} (h : s.version < 2 ^ 64) :
    decodeValue s.encodeValue = s.version :=
  beNat_beBytes (by omega)

end StaleNode

/-! ### The store -/

structure SmtStore (D : Type) where
  nodes : Column (Arr 42) (Node D) := {}
  stale : Column (Arr 42) (Arr 8) := {}
  deriving DecidableEq

namespace SmtStore

variable {D : Type}

/-- The nodes of one position that a read at `maxVersion` passes, latest first. -/
def versions (s : SmtStore D) (key : NodeKey) (maxVersion : Nat) : List (Arr 42 × Node D) :=
  let start := key.encodeWithVersion maxVersion
  s.nodes.scan fun raw => decide (start ≤ raw) && (raw.val.take 34 == start.val.take 34)

/-- `visible` is the snapshot: all versions, or those of the canonical chain. -/
def node (s : SmtStore D) (visible : Nat → Bool) (maxVersion : Nat) : Reads D := fun key =>
  (s.versions key maxVersion).findSome? fun e =>
    let version := NodeKey.decodeVersion e.1
    if visible version then some (version, e.2) else none

def write (s : SmtStore D) : SmtWrite D → SmtStore D
  | .putNode key version node => { s with nodes := s.nodes.put (key.encodeWithVersion version) node }
  | .putStaleNode stale => { s with stale := s.stale.put stale.encodeKey stale.encodeValue }

def apply (s : SmtStore D) (wb : WriteBatch D) : SmtStore D := wb.foldl write s

/-- Deletes the node a stale marker names, and the marker. -/
def pruneMarker (version : Nat) (s : SmtStore D) (marker : Arr 42 × Arr 8) : SmtStore D :=
  let key := StaleNode.decodeKey marker.1
  let nodeVersion := StaleNode.decodeValue marker.2
  { nodes := s.nodes.delete (key.encodeWithVersion nodeVersion)
    stale := s.stale.delete (StaleNode.encodeKey ⟨version, key, nodeVersion⟩) }

/-- The markers of `version`, read before any deletion is applied. -/
def markers (s : SmtStore D) (version : Nat) : List (Arr 42 × Arr 8) :=
  s.stale.scan fun raw => raw.val.take 8 == beBytes 8 version

def prune (s : SmtStore D) (version : Nat) : SmtStore D :=
  (s.markers version).foldl (pruneMarker version) s

/-- What is stored at a position, by version. -/
def history (s : SmtStore D) (key : NodeKey) : Nat → Option (Node D) :=
  fun v => s.nodes.get (key.encodeWithVersion v)

theorem mem_versions {s : SmtStore D} {key : NodeKey} {w : Nat} (hw : w < 2 ^ 64) {e : Arr 42 × Node D} :
    e ∈ s.versions key w ↔ ∃ v ≤ w, e.1 = key.encodeWithVersion v ∧ s.history key v = some e.2 := by
  have start : (key.encodeWithVersion w).val.take 34 = key.encode :=
    List.take_left' (NodeKey.length_encode key)
  unfold versions
  rw [show e = (e.1, e.2) from rfl, Column.mem_scan]
  simp only [Bool.and_eq_true, decide_eq_true_eq, beq_iff_eq, start]
  constructor
  · intro ⟨⟨hle, htake⟩, hget⟩
    have hraw := NodeKey.encodeWithVersion_decodeVersion htake
    have hlt : NodeKey.decodeVersion e.1 < 2 ^ 64 := by
      unfold NodeKey.decodeVersion
      omega
    refine ⟨NodeKey.decodeVersion e.1, ?_, hraw.symm, by rw [history, hraw]; exact hget⟩
    by_contra hgt
    rw [← hraw] at hle
    exact absurd hle (not_le.mpr ((NodeKey.encodeWithVersion_lt_iff key hlt hw).mpr (by omega)))
  · intro ⟨v, hle, hraw, hget⟩
    rw [hraw]
    refine ⟨⟨not_lt.mp fun h => ?_, List.take_left' (NodeKey.length_encode key)⟩, hget⟩
    have := (NodeKey.encodeWithVersion_lt_iff key (by omega) hw).mp h
    omega

/-- A read is the latest visible version. -/
theorem node_eq_latest (s : SmtStore D) (visible : Nat → Bool) {w : Nat} (hw : w < 2 ^ 64)
    (key : NodeKey) : s.node visible w key = latest (seen visible (s.history key)) w := by
  have ordered : (s.versions key w).Pairwise fun a b => a.1 < b.1 := s.nodes.sorted.filter _
  refine Option.ext fun r => ?_
  obtain ⟨v, n⟩ := r
  rw [latest_eq_some, node, List.findSome?_eq_some_iff]
  constructor
  · rintro ⟨before, e, after, hsplit, hhit, hmiss⟩
    obtain ⟨v', hle, hraw, hget⟩ := (mem_versions hw).mp (hsplit ▸ by simp : e ∈ s.versions key w)
    simp only [hraw, NodeKey.decodeVersion_encodeWithVersion key (show v' < 2 ^ 64 by omega)] at hhit
    split at hhit
    · next hvis =>
      cases hhit
      refine ⟨hle, by rw [seen, if_pos hvis, hget], fun u hu hle' => ?_⟩
      unfold seen
      split
      · next hvis' =>
        -- a later visible version would come earlier in the scan
        cases hu' : s.history key u with
        | none => rfl
        | some m =>
          have hmem : (key.encodeWithVersion u, m) ∈ s.versions key w :=
            (mem_versions hw).mpr ⟨u, hle', rfl, hu'⟩
          have hlt : key.encodeWithVersion u < e.1 := by
            rw [hraw]
            exact (NodeKey.encodeWithVersion_lt_iff key (by omega) (by omega)).mpr hu
          rw [hsplit] at hmem ordered
          have hbefore : (key.encodeWithVersion u, m) ∈ before := by
            obtain ⟨_, later, _⟩ := List.pairwise_append.mp ordered
            rcases List.mem_append.mp hmem with h | h
            · exact h
            · rcases List.mem_cons.mp h with h | h
              · exact absurd hlt (by rw [← h]; exact lt_irrefl _)
              · exact absurd hlt (lt_asymm ((List.pairwise_cons.mp later).1 _ h))
          have := hmiss _ hbefore
          simp [NodeKey.decodeVersion_encodeWithVersion key (show u < 2 ^ 64 by omega),
            hvis'] at this
      · rfl
    · cases hhit
  · rintro ⟨hle, hv, newest⟩
    obtain ⟨hvis, hget⟩ : visible v = true ∧ s.history key v = some n := by
      unfold seen at hv
      split at hv
      · exact ⟨‹_›, hv⟩
      · cases hv
    have hmem : (key.encodeWithVersion v, n) ∈ s.versions key w :=
      (mem_versions hw).mpr ⟨v, hle, rfl, hget⟩
    obtain ⟨before, after, hsplit⟩ := List.append_of_mem hmem
    refine ⟨before, _, after, hsplit, ?_, fun e he => ?_⟩
    · simp [NodeKey.decodeVersion_encodeWithVersion key (show v < 2 ^ 64 by omega), hvis]
    · obtain ⟨u, hle', hraw, hget'⟩ := (mem_versions hw).mp (hsplit ▸ List.mem_append_left _ he)
      rw [hsplit] at ordered
      have hlt : e.1 < key.encodeWithVersion v :=
        (List.pairwise_append.mp ordered).2.2 e he _ List.mem_cons_self
      rw [hraw] at hlt
      have hu := (NodeKey.encodeWithVersion_lt_iff key (by omega) (by omega)).mp hlt
      have hidden := newest u hu hle'
      unfold seen at hidden
      simp only [hraw, NodeKey.decodeVersion_encodeWithVersion key (show u < 2 ^ 64 by omega)]
      split at hidden
      · rw [hget'] at hidden
        cases hidden
      · next hvis' => rw [if_neg hvis']

end SmtStore

end Vprogs.Smt
