import Mathlib.Data.Finset.Lattice.Basic
import Mathlib.Order.Disjoint
import Mathlib.Data.Finset.Disjoint

/-!
# Families of blocks that partition a set

A family `m` gives each point `i` its block `m i`. It partitions `A` when every point of `A` lies
in its own block and two blocks are equal or disjoint. The family confines itself to `T ⊆ A` when
blocks of points of `T` stay inside `T` and every other point of `A` is alone. Restricting a
partition to `T`, making the points of `T` singletons, and merging singletons of `T` into one
group all keep both.
-/

namespace Blocks

variable {ι : Type*}

structure Partitions (A : Finset ι) (m : ι → Finset ι) : Prop where
  mem_self : ∀ i ∈ A, i ∈ m i
  eq_or_disjoint : ∀ i ∈ A, ∀ j ∈ A, m i = m j ∨ Disjoint (m i) (m j)

structure Confined (A T : Finset ι) (m : ι → Finset ι) : Prop where
  subset : ∀ i ∈ T, m i ⊆ T
  alone : ∀ i ∈ A, i ∉ T → m i = {i}

theorem Partitions.congr {A : Finset ι} {m m' : ι → Finset ι} (h : Partitions A m)
    (hm : ∀ i ∈ A, m' i = m i) : Partitions A m' where
  mem_self i hi := by
    rw [hm i hi]
    exact h.mem_self i hi
  eq_or_disjoint i hi j hj := by
    rw [hm i hi, hm j hj]
    exact h.eq_or_disjoint i hi j hj

variable [DecidableEq ι]

/-- The blocks of `m` cut down to `T`, with every point outside `T` alone. -/
def restrict (T : Finset ι) (m : ι → Finset ι) (i : ι) : Finset ι :=
  if i ∈ T then m i ∩ T else {i}

def singletons (T : Finset ι) (m : ι → Finset ι) (i : ι) : Finset ι :=
  if i ∈ T then {i} else m i

/-- Every point of `g` gets the block `g`. -/
def merge (g : Finset ι) (m : ι → Finset ι) (i : ι) : Finset ι :=
  if i ∈ g then g else m i

variable {A T g : Finset ι} {m : ι → Finset ι}

/-- No block of another point contains a point outside `T`. -/
theorem Confined.not_mem_block (h : Confined A T m) {i j : ι} (hi : i ∉ T)
    (hj : j ∈ A) (hij : i ≠ j) : i ∉ m j := by
  intro hm
  by_cases hjT : j ∈ T
  · exact hi (h.subset j hjT hm)
  · rw [h.alone j hj hjT, Finset.mem_singleton] at hm
    exact hij hm

theorem restrict_confined (A T : Finset ι) (m : ι → Finset ι) : Confined A T (restrict T m) where
  subset i hi := by
    rw [restrict, if_pos hi]
    exact Finset.inter_subset_right
  alone i _ hi := by rw [restrict, if_neg hi]

theorem restrict_partitions (h : Partitions A m) (T : Finset ι) :
    Partitions A (restrict T m) where
  mem_self i hi := by
    by_cases hT : i ∈ T
    · rw [restrict, if_pos hT]
      exact Finset.mem_inter.mpr ⟨h.mem_self i hi, hT⟩
    · rw [restrict, if_neg hT]
      exact Finset.mem_singleton_self i
  eq_or_disjoint i hi j hj := by
    by_cases hiT : i ∈ T <;> by_cases hjT : j ∈ T
    · rw [restrict, restrict, if_pos hiT, if_pos hjT]
      rcases h.eq_or_disjoint i hi j hj with heq | hdis
      · exact Or.inl (by rw [heq])
      · exact Or.inr (hdis.mono Finset.inter_subset_left Finset.inter_subset_left)
    · rw [restrict, restrict, if_pos hiT, if_neg hjT]
      exact Or.inr (Finset.disjoint_singleton_right.mpr fun hm => hjT (Finset.mem_inter.mp hm).2)
    · rw [restrict, restrict, if_neg hiT, if_pos hjT]
      exact Or.inr (Finset.disjoint_singleton_left.mpr fun hm => hiT (Finset.mem_inter.mp hm).2)
    · rw [restrict, restrict, if_neg hiT, if_neg hjT]
      rcases eq_or_ne i j with rfl | hij
      · exact Or.inl rfl
      · exact Or.inr (Finset.disjoint_singleton.mpr hij)

theorem restrict_idem {m' : ι → Finset ι} {i : ι} (h : m' i = restrict T m i) :
    restrict T m' i = restrict T m i := by
  by_cases hT : i ∈ T
  · simp only [restrict, if_pos hT] at h ⊢
    rw [h, Finset.inter_assoc, Finset.inter_self]
  · simp only [restrict, if_neg hT]

/-- A confined family does not change when it is restricted to the same set again. -/
theorem Confined.restrict_eq (h : Confined A T m) {i : ι} (hi : i ∈ A) :
    restrict T m i = m i := by
  by_cases hT : i ∈ T
  · rw [restrict, if_pos hT, Finset.inter_eq_left.mpr (h.subset i hT)]
  · rw [restrict, if_neg hT, h.alone i hi hT]

theorem Confined.singletons (h : Confined A T m) : Confined A T (singletons T m) where
  subset i hi := by
    rw [Blocks.singletons, if_pos hi]
    exact Finset.singleton_subset_iff.mpr hi
  alone i hA hi := by
    rw [Blocks.singletons, if_neg hi]
    exact h.alone i hA hi

theorem Confined.singletons_eq (h : Confined A T m) {i : ι} (hi : i ∈ A) :
    Blocks.singletons T m i = {i} := by
  by_cases hT : i ∈ T
  · rw [Blocks.singletons, if_pos hT]
  · rw [Blocks.singletons, if_neg hT, h.alone i hi hT]

theorem Confined.singletons_partitions (h : Confined A T m) :
    Partitions A (Blocks.singletons T m) where
  mem_self i hi := by
    rw [h.singletons_eq hi]
    exact Finset.mem_singleton_self i
  eq_or_disjoint i hi j hj := by
    rw [h.singletons_eq hi, h.singletons_eq hj]
    rcases eq_or_ne i j with rfl | hij
    · exact Or.inl rfl
    · exact Or.inr (Finset.disjoint_singleton.mpr hij)

theorem Confined.merge (h : Confined A T m) (hg : g ⊆ T) : Confined A T (merge g m) where
  subset i hi := by
    by_cases hig : i ∈ g
    · rw [Blocks.merge, if_pos hig]
      exact hg
    · rw [Blocks.merge, if_neg hig]
      exact h.subset i hi
  alone i hA hi := by
    rw [Blocks.merge, if_neg fun hig => hi (hg hig)]
    exact h.alone i hA hi

/-- Merging points that are alone keeps the partition: no other block can meet the new one. -/
theorem Partitions.merge (h : Partitions A m) (hgA : g ⊆ A) (hg : ∀ i ∈ g, m i = {i}) :
    Partitions A (merge g m) where
  mem_self i hi := by
    by_cases hig : i ∈ g
    · rw [Blocks.merge, if_pos hig]
      exact hig
    · rw [Blocks.merge, if_neg hig]
      exact h.mem_self i hi
  eq_or_disjoint := by
    -- a block of a point outside `g` misses every point of `g`, because that point is alone
    have hout : ∀ j ∈ A, j ∉ g → Disjoint g (m j) := by
      intro j hj hjg
      rw [Finset.disjoint_left]
      intro i hi him
      rcases h.eq_or_disjoint i (hgA hi) j hj with heq | hdis
      · have hmem := h.mem_self j hj
        rw [← heq, hg i hi, Finset.mem_singleton] at hmem
        exact hjg (hmem ▸ hi)
      · exact Finset.disjoint_left.mp hdis (h.mem_self i (hgA hi)) him
    intro i hi j hj
    by_cases hig : i ∈ g <;> by_cases hjg : j ∈ g
    · exact Or.inl (by rw [Blocks.merge, Blocks.merge, if_pos hig, if_pos hjg])
    · rw [Blocks.merge, Blocks.merge, if_pos hig, if_neg hjg]
      exact Or.inr (hout j hj hjg)
    · rw [Blocks.merge, Blocks.merge, if_neg hig, if_pos hjg]
      exact Or.inr (hout i hi hig).symm
    · rw [Blocks.merge, Blocks.merge, if_neg hig, if_neg hjg]
      exact h.eq_or_disjoint i hi j hj

end Blocks
