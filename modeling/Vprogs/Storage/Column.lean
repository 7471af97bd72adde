import Mathlib.Data.List.Induction
import Mathlib.Data.List.Lex
import Mathlib.Data.List.Nodup
import Vprogs.Codec.Bytes

/-!
Ordered key-value columns. A column is a finite map kept in key order; it is read
by key or scanned in order. Write batches are folds of puts and deletes, so the
last put of a key wins.
-/
namespace Vprogs

instance instLinearOrderUInt8 : LinearOrder UInt8 where
  le_refl a := UInt8.le_refl a
  le_trans _ _ _ := UInt8.le_trans
  lt_iff_le_not_ge _ _ := by simp only [UInt8.lt_iff_toNat_lt, UInt8.le_iff_toNat_le]; omega
  le_antisymm _ _ := UInt8.le_antisymm
  le_total a b := UInt8.le_total a b
  toDecidableLE := inferInstance

structure Column (K V : Type) [LinearOrder K] where
  entries : List (K × V) := []
  sorted : entries.Pairwise (fun a b => a.1 < b.1) := by exact List.Pairwise.nil
  deriving DecidableEq

namespace Column

variable {K V : Type} [LinearOrder K]

def empty : Column K V := {}

def get (c : Column K V) (k : K) : Option V :=
  (c.entries.find? fun e => decide (e.1 = k)).map Prod.snd

def put (c : Column K V) (k : K) (v : V) : Column K V where
  entries := c.entries.filter (fun e => decide (e.1 < k)) ++
    (k, v) :: c.entries.filter (fun e => decide (k < e.1))
  sorted := by
    refine List.pairwise_append.mpr ⟨c.sorted.filter _,
      List.pairwise_cons.mpr ⟨fun e he => by simpa using (List.mem_filter.mp he).2,
        c.sorted.filter _⟩, fun a ha b hb => ?_⟩
    have low : a.1 < k := by simpa using (List.mem_filter.mp ha).2
    match List.mem_cons.mp hb with
    | .inl h => exact h ▸ low
    | .inr h => exact lt_trans low (by simpa using (List.mem_filter.mp h).2)

def delete (c : Column K V) (k : K) : Column K V where
  entries := c.entries.filter (fun e => decide (e.1 ≠ k))
  sorted := c.sorted.filter _

/-- The entries whose keys satisfy `p`, in key order. -/
def scan (c : Column K V) (p : K → Bool) : List (K × V) := c.entries.filter fun e => p e.1

theorem nodup_keys (c : Column K V) : (c.entries.map Prod.fst).Nodup := by
  rw [List.nodup_iff_pairwise_ne, List.pairwise_map]
  exact c.sorted.imp fun h => ne_of_lt h

theorem get_eq_some {c : Column K V} {k : K} {v : V} : c.get k = some v ↔ (k, v) ∈ c.entries := by
  unfold get
  constructor
  · intro h
    have ⟨e, he, hv⟩ := Option.map_eq_some_iff.mp h
    have hk : e.1 = k := by simpa using List.find?_some he
    have := List.mem_of_find?_eq_some he
    rwa [← hk, ← hv]
  · intro hmem
    match hf : c.entries.find? fun e => decide (e.1 = k) with
    | none => exact absurd (List.find?_eq_none.mp hf _ hmem) (by simp)
    | some e =>
      have hk : e.1 = k := by simpa using List.find?_some hf
      have he := List.mem_of_find?_eq_some hf
      have same : e = (k, v) := List.inj_on_of_nodup_map c.nodup_keys he hmem hk
      rw [hf, same]
      rfl

theorem mem_put {c : Column K V} {k : K} {v : V} {e : K × V} :
    e ∈ (c.put k v).entries ↔ e = (k, v) ∨ e.1 ≠ k ∧ e ∈ c.entries := by
  have split : e.1 ≠ k ↔ e.1 < k ∨ k < e.1 := lt_or_lt_iff_ne.symm
  simp only [put, List.mem_append, List.mem_cons, List.mem_filter, decide_eq_true_eq, split]
  tauto

theorem get_put (c : Column K V) (k k' : K) (v : V) :
    (c.put k v).get k' = if k' = k then some v else c.get k' := by
  refine Option.ext fun v' => ?_
  rw [get_eq_some, mem_put]
  split
  · next h => simp [h, eq_comm]
  · next h => simp [h, get_eq_some]

theorem get_delete (c : Column K V) (k k' : K) :
    (c.delete k).get k' = if k' = k then none else c.get k' := by
  refine Option.ext fun v' => ?_
  rw [get_eq_some, delete, List.mem_filter]
  split
  · next h => simp [h]
  · next h => simp [h, get_eq_some]

theorem mem_scan {c : Column K V} {p : K → Bool} {k : K} {v : V} :
    (k, v) ∈ c.scan p ↔ p k = true ∧ c.get k = some v := by
  rw [scan, List.mem_filter, get_eq_some]
  tauto

/-- A put or a delete of one key. -/
inductive Write (K V : Type)
  | put (k : K) (v : V)
  | delete (k : K)
  deriving DecidableEq

def Write.key : Write K V → K
  | .put k _ | .delete k => k

/-- What the key holds after the write. -/
def Write.value : Write K V → Option V
  | .put _ v => some v
  | .delete _ => none

def write (c : Column K V) : Write K V → Column K V
  | .put k v => c.put k v
  | .delete k => c.delete k

def writeAll (c : Column K V) (ws : List (Write K V)) : Column K V := ws.foldl write c

theorem get_write (c : Column K V) (w : Write K V) (k : K) :
    (c.write w).get k = if k = w.key then w.value else c.get k := by
  cases w with
  | put k' v => exact get_put c k' k v
  | delete k' => exact get_delete c k' k

@[simp] theorem writeAll_nil (c : Column K V) : c.writeAll [] = c := rfl

theorem writeAll_append (c : Column K V) (ws ws' : List (Write K V)) :
    c.writeAll (ws ++ ws') = (c.writeAll ws).writeAll ws' := List.foldl_append

/-- A key that no write names keeps its value. -/
theorem get_writeAll_of_ne {ws : List (Write K V)} {k : K} (h : ∀ w ∈ ws, w.key ≠ k)
    (c : Column K V) : (c.writeAll ws).get k = c.get k := by
  induction ws generalizing c with
  | nil => rfl
  | cons w ws ih =>
    have ⟨hw, hws⟩ := List.forall_mem_cons.mp h
    change ((c.write w).writeAll ws).get k = _
    rw [ih hws, get_write, if_neg (Ne.symm hw)]

/-- If all writes to a key leave the same value, that is its value once there is one. -/
theorem get_writeAll_of_same {ws : List (Write K V)} {k : K} {v : Option V}
    (h : ∀ w ∈ ws, w.key = k → w.value = v) (hex : ∃ w ∈ ws, w.key = k) (c : Column K V) :
    (c.writeAll ws).get k = v := by
  induction ws using List.reverseRecOn with
  | nil =>
    have ⟨_, hmem, _⟩ := hex
    cases hmem
  | append_singleton ws w ih =>
    rw [writeAll_append]
    change ((c.writeAll ws).write w).get k = v
    rw [get_write]
    by_cases hk : w.key = k
    · rw [if_pos hk.symm, h w (by simp) hk]
    · rw [if_neg (Ne.symm hk)]
      refine ih (fun w' hw' => h w' (List.mem_append_left _ hw')) ?_
      have ⟨w', hmem, hkey⟩ := hex
      match List.mem_append.mp hmem with
      | .inl hmem => exact ⟨w', hmem, hkey⟩
      | .inr hmem => exact absurd (List.mem_singleton.mp hmem ▸ hkey) hk

end Column

end Vprogs
