import Mathlib.Data.List.Basic
import Mathlib.Algebra.Order.Ring.Nat

/-!
Byte strings, fixed-size arrays, and numbers in little- and big-endian bytes.
-/
namespace Vprogs

abbrev Bytes := List UInt8

/-- A byte array of fixed size. -/
abbrev Arr (n : Nat) := { bs : Bytes // bs.length = n }

namespace Arr

theorem ext {n : Nat} {a b : Arr n} (h : a.val = b.val) : a = b := Subtype.ext h

@[simp] theorem length_val {n : Nat} (a : Arr n) : a.val.length = n := a.property

instance {n : Nat} (a : Arr n) (l : List (Arr n)) : Decidable (a ∈ l) := inferInstance

/-- The array with the same byte everywhere. -/
def fill {n : Nat} (b : UInt8) : Arr n := ⟨List.replicate n b, List.length_replicate⟩

end Arr

/-- Value of a little-endian number. -/
def leNat : Bytes → Nat
  | [] => 0
  | b :: bs => b.toNat + 256 * leNat bs

/-- The `w` low bytes of a number, little end first. -/
def leBytes : Nat → Nat → Bytes
  | 0, _ => []
  | w + 1, n => UInt8.ofNat n :: leBytes w (n / 256)

@[simp] theorem length_leBytes (w n : Nat) : (leBytes w n).length = w := by
  induction w generalizing n with
  | zero => rfl
  | succ w ih => simp [leBytes, ih]

theorem leNat_lt (bs : Bytes) : leNat bs < 256 ^ bs.length := by
  induction bs with
  | nil => simp [leNat]
  | cons b bs ih =>
    have hb : b.toNat < 256 := b.toNat_lt
    rw [leNat, List.length_cons, pow_succ]
    omega

theorem leNat_leBytes {w n : Nat} (h : n < 256 ^ w) : leNat (leBytes w n) = n := by
  induction w generalizing n with
  | zero => simp at h; simp [leBytes, leNat, h]
  | succ w ih =>
    rw [pow_succ] at h
    rw [leBytes, leNat, ih (by omega)]
    simp
    omega

theorem leBytes_leNat (bs : Bytes) : leBytes bs.length (leNat bs) = bs := by
  induction bs with
  | nil => rfl
  | cons b bs ih =>
    have hb : b.toNat < 256 := b.toNat_lt
    rw [List.length_cons, leNat, leBytes]
    have low : UInt8.ofNat (b.toNat + 256 * leNat bs) = b := by
      apply UInt8.toNat_inj.mp
      simp
    have high : (b.toNat + 256 * leNat bs) / 256 = leNat bs := by omega
    rw [low, high, ih]

theorem leNat_append (xs ys : Bytes) : leNat (xs ++ ys) = leNat xs + 256 ^ xs.length * leNat ys := by
  induction xs with
  | nil => simp [leNat]
  | cons x xs ih =>
    rw [List.cons_append, leNat, ih, leNat, List.length_cons, pow_succ', Nat.mul_add, Nat.mul_assoc,
      Nat.add_assoc]

theorem leNat_injective {xs ys : Bytes} (hlen : xs.length = ys.length)
    (h : leNat xs = leNat ys) : xs = ys := by
  rw [← leBytes_leNat xs, ← leBytes_leNat ys, hlen, h]

/-- Value of a big-endian number. -/
def beNat (bs : Bytes) : Nat := leNat bs.reverse

/-- The `w` low bytes of a number, big end first. -/
def beBytes (w n : Nat) : Bytes := (leBytes w n).reverse

@[simp] theorem length_beBytes (w n : Nat) : (beBytes w n).length = w := by simp [beBytes]

theorem beNat_beBytes {w n : Nat} (h : n < 256 ^ w) : beNat (beBytes w n) = n := by
  rw [beNat, beBytes, List.reverse_reverse, leNat_leBytes h]

theorem beNat_lt (bs : Bytes) : beNat bs < 256 ^ bs.length := by
  have := leNat_lt bs.reverse
  rwa [List.length_reverse] at this

theorem beBytes_beNat (bs : Bytes) : beBytes bs.length (beNat bs) = bs := by
  have := leBytes_leNat bs.reverse
  rw [List.length_reverse] at this
  rw [beBytes, beNat, this, List.reverse_reverse]

theorem beNat_cons (b : UInt8) (bs : Bytes) : beNat (b :: bs) = b.toNat * 256 ^ bs.length + beNat bs := by
  rw [beNat, List.reverse_cons, leNat_append, List.length_reverse, leNat, leNat, Nat.mul_zero,
    Nat.add_zero, beNat, Nat.mul_comm, Nat.add_comm]

/-- Byte strings of one length are ordered as the numbers they spell. -/
theorem beNat_lt_beNat {xs ys : Bytes} (hlen : xs.length = ys.length) : beNat xs < beNat ys ↔ xs < ys := by
  induction xs generalizing ys with
  | nil =>
    match ys, hlen with
    | [], _ => simp
  | cons x xs ih =>
    match ys, hlen with
    | y :: ys, hlen =>
      have hlen : xs.length = ys.length := by simpa using hlen
      have hx := beNat_lt xs
      have hy := beNat_lt ys
      rw [beNat_cons, beNat_cons, List.cons_lt_cons_iff, ← ih hlen, hlen]
      rw [hlen] at hx
      generalize 256 ^ ys.length = w at hx hy
      by_cases heq : x = y
      · subst heq
        simp [UInt8.lt_irrefl]
      · have hne : x.toNat ≠ y.toNat := fun h => heq (UInt8.toNat_inj.mp h)
        simp only [heq, false_and, or_false, UInt8.lt_iff_toNat_lt]
        constructor
        · intro h
          by_contra hle
          have : y.toNat + 1 ≤ x.toNat := by omega
          have := Nat.mul_le_mul_right w this
          rw [Nat.add_mul] at this
          omega
        · intro h
          have := Nat.mul_le_mul_right w (Nat.succ_le_of_lt h)
          rw [Nat.succ_mul] at this
          omega

theorem beBytes_injective {w m n : Nat} (hm : m < 256 ^ w) (hn : n < 256 ^ w)
    (h : beBytes w m = beBytes w n) : m = n := by
  rw [← beNat_beBytes hm, h, beNat_beBytes hn]

end Vprogs
