import Mathlib.Data.Nat.Bitwise
import Mathlib.Data.BitVec
import Vprogs.Codec.Bytes

/-!
Tree keys. A key is a 256-bit string read most significant bit first, so bit
`0` decides the branch at the root and the unsigned order of two keys is the
byte-lexicographic order of the source.
-/
namespace Vprogs.Smt

abbrev Key := BitVec 256

/-- Number of levels in the tree. -/
def DEPTH : Nat := 256

namespace Key

instance (k : Key) (ks : List Key) : Decidable (k ∈ ks) := inferInstance

/-- `Bits::get_msb`: out-of-range indices read as `false`. -/
def getMsb (k : Key) (i : Nat) : Bool := k.getMsbD i

/-- `Bits::shares_prefix`: a prefix longer than the key is never shared. -/
def sharesPrefix (k l : Key) (bits : Nat) : Bool :=
  decide (bits ≤ 256) && (k >>> (256 - bits) == l >>> (256 - bits))

/-- The 32 bytes of a key. -/
def toBytes (k : Key) : Bytes := beBytes 32 k.toNat

/-- Any 32 bytes are a key. -/
def ofBytes (bs : Bytes) : Option Key := some (BitVec.ofNat 256 (beNat bs))

theorem ofBytes_toBytes (k : Key) : ofBytes k.toBytes = some k := by
  rw [ofBytes, toBytes, beNat_beBytes (by simpa using k.isLt), BitVec.ofNat_toNat, BitVec.setWidth_eq]

theorem ext_getMsb {k l : Key} (h : ∀ i < 256, k.getMsb i = l.getMsb i) : k = l :=
  BitVec.eq_of_getMsbD_eq h

theorem getMsb_eq_testBit (k : Key) {i : Nat} (hi : i < 256) : k.getMsb i = k.toNat.testBit (255 - i) := by
  simp [getMsb, BitVec.getMsbD, BitVec.getLsbD, hi]

theorem sharesPrefix_iff (k l : Key) (bits : Nat) :
    sharesPrefix k l bits = true ↔
      bits ≤ 256 ∧ ∀ i < bits, k.getMsb i = l.getMsb i := by
  simp only [sharesPrefix, Bool.and_eq_true, decide_eq_true_eq, beq_iff_eq]
  refine and_congr_right fun hb => ?_
  constructor
  · intro h i hi
    have := congrArg (fun x : Key => x.getLsbD (bits - 1 - i)) h
    simp only [BitVec.getLsbD_ushiftRight] at this
    rw [getMsb_eq_testBit k (by omega), getMsb_eq_testBit l (by omega)]
    rwa [show 255 - i = 256 - bits + (bits - 1 - i) by omega]
  · intro h
    apply BitVec.eq_of_getLsbD_eq
    intro j hj
    simp only [BitVec.getLsbD_ushiftRight]
    by_cases hlt : 256 - bits + j < 256
    · have := h (255 - (256 - bits + j)) (by omega)
      rw [getMsb_eq_testBit k (by omega), getMsb_eq_testBit l (by omega)] at this
      rwa [show 255 - (255 - (256 - bits + j)) = 256 - bits + j by omega] at this
    · rw [BitVec.getLsbD_of_ge k _ (by omega), BitVec.getLsbD_of_ge l _ (by omega)]

/-- Below a shared prefix the order of two keys decides their next bit. -/
theorem getMsb_mono_of_prefix {k l : Key} {n : Nat} (hn : n < 256)
    (hp : ∀ i < n, k.getMsb i = l.getMsb i) (hkl : k < l)
    (hk : k.getMsb n = true) : l.getMsb n = true := by
  rw [getMsb_eq_testBit k hn] at hk
  rw [getMsb_eq_testBit l hn]
  have hhigh : k.toNat / 2 ^ (255 - n + 1) = l.toNat / 2 ^ (255 - n + 1) := by
    apply Nat.eq_of_testBit_eq
    intro j
    rw [Nat.testBit_div_two_pow, Nat.testBit_div_two_pow]
    by_cases hj : 255 - n + 1 + j < 256
    · have := hp (255 - (255 - n + 1 + j)) (by omega)
      rw [getMsb_eq_testBit k (by omega), getMsb_eq_testBit l (by omega)] at this
      rw [show 255 - (255 - (255 - n + 1 + j)) = 255 - n + 1 + j by omega] at this
      rwa [Nat.add_comm j]
    · rw [Nat.testBit_eq_false_of_lt, Nat.testBit_eq_false_of_lt]
      · exact lt_of_lt_of_le l.isLt (Nat.pow_le_pow_right (by omega) (by omega))
      · exact lt_of_lt_of_le k.isLt (Nat.pow_le_pow_right (by omega) (by omega))
  have hle : k.toNat / 2 ^ (255 - n) ≤ l.toNat / 2 ^ (255 - n) :=
    Nat.div_le_div_right (le_of_lt (BitVec.lt_def.mp hkl))
  rw [pow_succ, ← Nat.div_div_eq_div_mul, ← Nat.div_div_eq_div_mul] at hhigh
  rw [Nat.testBit_eq_decide_div_mod_eq, decide_eq_true_eq] at hk ⊢
  omega

end Key

section Sorting

variable {α : Type}

/-- Stable sort of keyed entries. -/
def sortByKey (es : List (Key × α)) : List (Key × α) := es.insertionSort fun a b => a.1 ≤ b.1

theorem sortByKey_perm (es : List (Key × α)) : (sortByKey es).Perm es :=
  List.perm_insertionSort _ es

instance : Std.Total fun a b : Key × α => a.1 ≤ b.1 := ⟨fun a b => BitVec.le_total a.1 b.1⟩

instance : IsTrans (Key × α) fun a b => a.1 ≤ b.1 := ⟨fun _ _ _ h h' => BitVec.le_trans h h'⟩

theorem pairwise_sortByKey (es : List (Key × α)) : (sortByKey es).Pairwise fun a b => a.1 ≤ b.1 :=
  List.pairwise_insertionSort _ es

theorem pairwise_lt_of_le {es : List (Key × α)} (sorted : es.Pairwise fun a b => a.1 ≤ b.1)
    (distinct : (es.map Prod.fst).Nodup) : es.Pairwise fun a b => a.1 < b.1 := by
  rw [List.nodup_iff_pairwise_ne, List.pairwise_map] at distinct
  exact (sorted.and distinct).imp fun h => BitVec.lt_of_le_ne h.1 h.2

/-- The sort keeps the order of the entries of one key. -/
theorem filter_sortByKey (k : Key) (es : List (Key × α)) :
    (sortByKey es).filter (fun e => e.1 == k) = es.filter fun e => e.1 == k := by
  have insert : ∀ (a : Key × α) (l : List (Key × α)),
      (l.orderedInsert (fun a b => a.1 ≤ b.1) a).filter (fun e => e.1 == k) =
        (a :: l).filter fun e => e.1 == k := by
    intro a l
    induction l with
    | nil => rfl
    | cons b l ih =>
      rw [List.orderedInsert_cons]
      split
      · rfl
      · next hlt =>
        -- an entry is only moved past smaller keys
        have hne : ¬ (a.1 = k ∧ b.1 = k) := fun h => hlt (by rw [h.1, h.2]; exact BitVec.le_refl k)
        simp only [List.filter_cons] at ih ⊢
        rw [ih]
        by_cases ha : a.1 = k <;> by_cases hb : b.1 = k <;> simp_all
  induction es with
  | nil => rfl
  | cons a es ih =>
    have hcons : sortByKey (a :: es) = (sortByKey es).orderedInsert (fun a b => a.1 ≤ b.1) a := rfl
    rw [hcons, insert, List.filter_cons, List.filter_cons, ih]

end Sorting
end Vprogs.Smt
