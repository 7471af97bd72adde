import Vprogs.CountingSort
import Vprogs.Smt.Totality

/-!
The inversion of a proof's membership table. The three passes run on arrays of 32-bit
counters indexed by positions from the wire; on a decoded proof no index leaves its array
and no counter wraps, and each leaf's slice lists the memberships that name it.
-/
namespace Vprogs.Smt

/-- `at` with its accesses checked. -/
def MembersByLeaf.slice (mbl : MembersByLeaf) (leafPos : Nat) : Option (List Nat) :=
  CountingSort.slice mbl leafPos

namespace Proof

section
variable {D : Type} (p : Proof D)

/-- `members_by_leaf` with its array accesses and 32-bit counters checked. -/
def buildMembersByLeaf : Option MembersByLeaf :=
  CountingSort.sort (2 ^ 32) p.leaves.length (p.memberships.map Membership.leafPos)

variable {p}

theorem buildMembersByLeaf_eq (h : p.memberships.length < 2 ^ 32) :
    p.buildMembersByLeaf = some p.membersByLeaf :=
  CountingSort.sort_eq (by rwa [List.length_map])

theorem slice_membersByLeaf {pos : Nat} (hp : pos < p.leaves.length) :
    p.membersByLeaf.slice pos = some (p.membersByLeaf.at pos) := by
  rw [membersByLeaf, Buckets.ofPositions_at _ _ hp]
  exact CountingSort.slice_eq hp

theorem pairwise_membersByLeaf {pos : Nat} (hp : pos < p.leaves.length) :
    (p.membersByLeaf.at pos).Pairwise (· < ·) := by
  rw [membersByLeaf, Buckets.ofPositions_at _ _ hp]
  exact List.pairwise_lt_range.filter _

theorem disjoint_membersByLeaf {pos pos' : Nat} (hp : pos < p.leaves.length) (hp' : pos' < p.leaves.length)
    (hne : pos ≠ pos') : (p.membersByLeaf.at pos).Disjoint (p.membersByLeaf.at pos') := by
  intro i hi hi'
  have ⟨ms, hms, hpos⟩ := (mem_membersByLeaf hp).mp hi
  have ⟨ms', hms', hpos'⟩ := (mem_membersByLeaf hp').mp hi'
  rw [hms] at hms'
  cases hms'
  exact hne (hpos.symm.trans hpos')

end

/-- On every decoded proof the passes finish, and the slices invert the membership table:
each lists the memberships of its leaf in increasing order, no two meet, and together they
are the whole index, so a membership that names no leaf is in none of them. -/
theorem membersByLeaf_inverts {bytes : Bytes} {p : Proof Digest} (h : decode bytes = .ok p) :
    ∃ (mbl : MembersByLeaf) (slices : Nat → List Nat),
      p.buildMembersByLeaf = some mbl ∧
      (∀ pos < p.leaves.length,
        mbl.slice pos = some (slices pos) ∧
        (slices pos).Pairwise (· < ·) ∧
        ∀ i, i ∈ slices pos ↔ ∃ ms, p.memberships[i]? = some ms ∧ ms.leafPos = pos) ∧
      (∀ pos < p.leaves.length, ∀ pos' < p.leaves.length, pos ≠ pos' →
        (slices pos).Disjoint (slices pos')) ∧
      mbl.indices = (List.range p.leaves.length).flatMap slices ∧
      ∀ i ms, p.memberships[i]? = some ms → p.leaves.length ≤ ms.leafPos → i ∉ mbl.indices := by
  have hindices := (Buckets.flatMap_at p.leaves.length (p.memberships.map Membership.leafPos)).symm
  refine ⟨p.membersByLeaf, p.membersByLeaf.at, buildMembersByLeaf_eq (memberships_lt_of_decode h),
    fun pos hp => ⟨slice_membersByLeaf hp, pairwise_membersByLeaf hp, fun i => mem_membersByLeaf hp⟩,
    fun pos hp pos' hp' hne => disjoint_membersByLeaf hp hp' hne, hindices, ?_⟩
  intro i ms hms hout hmem
  have ⟨pos, hrange, hslice⟩ := List.mem_flatMap.mp (hindices ▸ hmem)
  have hp := List.mem_range.mp hrange
  have ⟨found, hfound, hpos⟩ := (mem_membersByLeaf hp).mp hslice
  rw [hms] at hfound
  cases hfound
  omega

/-- One leaf, named by the first and the third of three memberships. -/
def thrice : Proof Digest where
  keys := [0]
  leaves := [⟨0, 0, Arr.fill 1⟩]
  siblings := []
  topology := []
  memberships := [.present 0, .absent 7, .absent 0]

theorem membersByLeaf_thrice : ∃ mbl members, thrice.buildMembersByLeaf = some mbl ∧
    mbl.slice 0 = some members ∧ 0 ∈ members ∧ 2 ∈ members ∧ 1 ∉ mbl.indices := by
  have hdecode : decode thrice.encode = .ok thrice :=
    decode_encode ⟨by decide, by decide, by decide, by decide, by decide, by decide, by decide⟩
  have ⟨mbl, slices, hbuild, hslices, _, _, hout⟩ := membersByLeaf_inverts hdecode
  have ⟨hslice, _, hmem⟩ := hslices 0 (by decide)
  exact ⟨mbl, slices 0, hbuild, hslice, (hmem 0).mpr ⟨_, rfl, rfl⟩, (hmem 2).mpr ⟨_, rfl, rfl⟩,
    hout 1 _ rfl (by decide)⟩

end Proof

end Vprogs.Smt
