import Mathlib.Data.List.Basic

/-!
Objects shared by reference. A reference is the position of an object in the order
of creation, so a new one differs from all that are held.
-/
namespace Vprogs

structure Heap (V : Type) where
  cells : List V := []

namespace Heap

variable {V : Type} [Inhabited V] {h : Heap V} {ref i : Nat} {v : V}

omit [Inhabited V] in
/-- The reference the next object gets. -/
def size (h : Heap V) : Nat := h.cells.length

def read (h : Heap V) (ref : Nat) : V := h.cells[ref]?.getD default

omit [Inhabited V] in
def alloc (h : Heap V) (v : V) : Heap V := ⟨h.cells ++ [v]⟩

omit [Inhabited V] in
def write (h : Heap V) (ref : Nat) (v : V) : Heap V := ⟨h.cells.set ref v⟩

omit [Inhabited V] in
@[simp] theorem size_alloc : (h.alloc v).size = h.size + 1 := by
  simp [size, alloc]

omit [Inhabited V] in
@[simp] theorem size_write : (h.write ref v).size = h.size := by
  simp [size, write]

@[simp] theorem read_alloc_self : (h.alloc v).read h.size = v := by
  simp [read, alloc, size]

theorem read_alloc_of_lt (hi : i < h.size) : (h.alloc v).read i = h.read i := by
  rw [read, read, alloc, List.getElem?_append_left hi]

theorem read_write_self (href : ref < h.size) : (h.write ref v).read ref = v := by
  rw [read, write, List.getElem?_set_self href]
  rfl

theorem read_write_of_ne (hne : i ≠ ref) : (h.write ref v).read i = h.read i := by
  rw [read, read, write, List.getElem?_set_ne hne.symm]

end Heap

end Vprogs
