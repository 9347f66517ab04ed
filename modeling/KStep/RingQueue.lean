import Mathlib.Data.BitVec
import Mathlib.Data.Nat.ModEq
import Mathlib.Logic.Function.Basic

/-!
# A ring buffer with free-running counters

A producer and a consumer share a ring of `cap` slots through two 32-bit counters that are never
reduced modulo `cap`; they wrap at `2 ^ 32`. The number of entries outstanding is their wrapping
difference.
-/

namespace RingQueue

structure Buffer (α : Type*) where
  slots : ℕ → α
  head : BitVec 32
  tail : BitVec 32

variable {α : Type*}

def Buffer.outstanding (r : Buffer α) : ℕ := (r.tail - r.head).toNat

/-- Add an entry, or `none` when `cap` are outstanding. -/
def Buffer.put (cap : ℕ) (r : Buffer α) (a : α) : Option (Buffer α) :=
  if cap ≤ r.outstanding then none
  else some { r with slots := Function.update r.slots (r.tail.toNat % cap) a, tail := r.tail + 1 }

/-- Take the oldest entry, or `none` when the counters are equal. -/
def Buffer.take (cap : ℕ) (r : Buffer α) : Option (α × Buffer α) :=
  if r.head = r.tail then none
  else some (r.slots (r.head.toNat % cap), { r with head := r.head + 1 })

/-- The ring once its oldest entry, if any, is taken. -/
def Buffer.drop (cap : ℕ) (r : Buffer α) : Buffer α :=
  match r.take cap with
  | none => r
  | some (_, r') => r'

/-- What is outstanding, oldest first. -/
def Buffer.contents (cap : ℕ) (r : Buffer α) : List α :=
  (List.range r.outstanding).map fun i => r.slots ((r.head + BitVec.ofNat 32 i).toNat % cap)

variable {cap : ℕ} {r r' : Buffer α} {a : α}

theorem Buffer.put_eq_none_iff : r.put cap a = none ↔ cap ≤ r.outstanding := by
  simp only [Buffer.put, ite_eq_left_iff, reduceCtorEq, imp_false, not_not]

theorem Buffer.outstanding_put (hcap : cap < 2 ^ 32) (h : r.put cap a = some r') :
    r'.outstanding = r.outstanding + 1 := by
  simp only [Buffer.put] at h
  split_ifs at h with hfull
  cases h
  simp only [Buffer.outstanding] at hfull ⊢
  bv_omega

theorem Buffer.outstanding_take (h : r.take cap = some (a, r')) :
    r.outstanding = r'.outstanding + 1 := by
  simp only [Buffer.take] at h
  split_ifs at h with hempty
  cases h
  simp only [Buffer.outstanding]
  bv_omega

theorem Buffer.outstanding_eq_zero_iff : r.outstanding = 0 ↔ r.head = r.tail := by
  simp only [Buffer.outstanding]
  constructor <;> intro h <;> bv_omega

theorem Buffer.outstanding_drop : (r.drop cap).outstanding = r.outstanding - 1 := by
  simp only [Buffer.drop]
  split
  · rename_i hempty
    simp only [Buffer.take, ite_eq_left_iff, reduceCtorEq, imp_false, not_not] at hempty
    rw [Buffer.outstanding_eq_zero_iff.mpr hempty]
  · rename_i htake
    rw [Buffer.outstanding_take htake, Nat.add_sub_cancel]

theorem Buffer.length_contents : (r.contents cap).length = r.outstanding := by
  rw [Buffer.contents, List.length_map, List.length_range]

theorem Buffer.take_eq_none_iff : r.take cap = none ↔ r.contents cap = [] := by
  rw [← List.length_eq_zero_iff, Buffer.length_contents, Buffer.outstanding_eq_zero_iff]
  simp only [Buffer.take, ite_eq_left_iff, reduceCtorEq, imp_false, not_not]

/-- The slot of an offset from a counter, where the ring's size divides the counters' range. -/
theorem slot_offset (hcap : cap ∣ 2 ^ 32) (x : BitVec 32) (i : ℕ) :
    (x + BitVec.ofNat 32 i).toNat % cap = (x.toNat + i) % cap := by
  rw [BitVec.toNat_add, BitVec.toNat_ofNat, Nat.add_mod_mod, Nat.mod_mod_of_dvd _ hcap]

theorem Buffer.tail_eq : r.tail = r.head + BitVec.ofNat 32 r.outstanding := by
  simp only [Buffer.outstanding]
  bv_omega

/-- The slot that is written is none of those in use. -/
theorem Buffer.slot_ne (hcap : cap ∣ 2 ^ 32) (hroom : r.outstanding < cap) {i : ℕ}
    (hi : i < r.outstanding) :
    (r.head + BitVec.ofNat 32 i).toNat % cap ≠ r.tail.toNat % cap := by
  intro heq
  rw [r.tail_eq, slot_offset hcap, slot_offset hcap] at heq
  have hmod : i ≡ r.outstanding [MOD cap] := Nat.ModEq.add_left_cancel' _ heq
  rw [Nat.ModEq, Nat.mod_eq_of_lt (hi.trans hroom), Nat.mod_eq_of_lt hroom] at hmod
  omega

/-- An entry put is the newest of the contents. -/
theorem Buffer.contents_put (hcap : cap ∣ 2 ^ 32) (hlt : cap < 2 ^ 32)
    (h : r.put cap a = some r') : r'.contents cap = r.contents cap ++ [a] := by
  have hnext := Buffer.outstanding_put hlt h
  simp only [Buffer.put] at h
  split_ifs at h with hfull
  cases h
  rw [Buffer.contents, hnext, List.range_succ, List.map_append, List.map_singleton]
  congr 1
  · refine List.map_congr_left fun i hi => ?_
    exact Function.update_of_ne (r.slot_ne hcap (not_le.mp hfull) (List.mem_range.mp hi)) _ _
  · simp only
    rw [← r.tail_eq, Function.update_self]

/-- An entry taken is the oldest of the contents. -/
theorem Buffer.contents_take (h : r.take cap = some (a, r')) :
    r.contents cap = a :: r'.contents cap := by
  have hnext := Buffer.outstanding_take h
  simp only [Buffer.take] at h
  split_ifs at h
  cases h
  rw [Buffer.contents, hnext, List.range_succ_eq_map, List.map_cons, List.map_map]
  congr 1
  · simp
  · refine List.map_congr_left fun i _ => ?_
    simp only [Function.comp_apply]
    congr 3
    bv_omega

end RingQueue
