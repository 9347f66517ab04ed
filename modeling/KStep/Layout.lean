import Mathlib.Algebra.Group.Nat.Defs
import Mathlib.Data.List.GetD

/-!
# C layouts

How a value lies in a byte-addressed memory: its size, its alignment, and how it is stored and
loaded at an address. Arrays repeat a layout, and a structure places its members one after another,
each at the next multiple of its alignment. A value that is stored is loaded back, and a store
leaves every other byte alone, also the bytes of padding.
-/

namespace Layout

variable {α β : Type}

/-- The least multiple of `a` from `n` on. -/
def roundUp (n a : ℕ) : ℕ := n + (a - n % a) % a

theorem le_roundUp (n a : ℕ) : n ≤ roundUp n a := Nat.le_add_right _ _

structure CType (α : Type) where
  size : ℕ
  align : ℕ
  get : List UInt8 → ℕ → α
  put : α → List UInt8 → ℕ → List UInt8
  length_put : ∀ a b i, (put a b i).length = b.length
  get_put : ∀ a b i, i + size ≤ b.length → get (put a b i) i = a
  put_frame : ∀ a b i j, j < i ∨ i + size ≤ j → (put a b i).getD j 0 = b.getD j 0
  get_congr : ∀ b b' i, (∀ j, i ≤ j → j < i + size → b.getD j 0 = b'.getD j 0) → get b i = get b' i
  get_drop : ∀ b k i, get (b.drop k) i = get b (k + i)

namespace CType

/-- A store elsewhere does not change what is loaded. -/
theorem get_put_of_disjoint (r : CType α) (f : CType β) (y : β) (b : List UInt8) {i k : ℕ}
    (h : i + r.size ≤ k ∨ k + f.size ≤ i) : r.get (f.put y b k) i = r.get b i := by
  apply r.get_congr
  intro j hlo hhi
  apply f.put_frame
  omega

def u8 : CType UInt8 where
  size := 1
  align := 1
  get b i := b.getD i 0
  put a b i := b.set i a
  length_put _ _ _ := List.length_set
  get_put a b i h := by
    have hlt : i < (b.set i a).length := by
      rw [List.length_set]
      exact h
    rw [List.getD_eq_getElem _ _ hlt, List.getElem_set_self]
  put_frame a b i j h := by
    have hne : i ≠ j := by omega
    rw [List.getD_eq_getElem?_getD, List.getElem?_set_ne hne, ← List.getD_eq_getElem?_getD]
  get_congr b b' i h := h i (Nat.le_refl i) (Nat.lt_succ_self i)
  get_drop b k i := by
    rw [List.getD_eq_getElem?_getD, List.getElem?_drop, ← List.getD_eq_getElem?_getD]

def view (r : CType α) (f : α → β) (g : β → α) (h : ∀ y, f (g y) = y) : CType β where
  size := r.size
  align := r.align
  get b i := f (r.get b i)
  put y := r.put (g y)
  length_put _ _ _ := r.length_put _ _ _
  get_put y b i hroom := by rw [r.get_put _ _ _ hroom, h]
  put_frame _ _ _ _ := r.put_frame _ _ _ _
  get_congr b b' i hsame := congrArg f (r.get_congr b b' i hsame)
  get_drop b k i := congrArg f (r.get_drop b k i)

def aligned (r : CType α) (n : ℕ) : CType α := { r with align := n }

def snoc (r : CType α) (f : CType β) : CType (α × β) where
  size := roundUp r.size f.align + f.size
  align := max r.align f.align
  get b i := (r.get b i, f.get b (i + roundUp r.size f.align))
  put p b i := f.put p.2 (r.put p.1 b i) (i + roundUp r.size f.align)
  length_put p b i := by rw [f.length_put, r.length_put]
  get_put p b i h := by
    have hle := le_roundUp r.size f.align
    rw [r.get_put_of_disjoint f _ _ (Or.inl (by omega)), r.get_put _ _ _ (by omega),
      f.get_put _ _ _ (by rw [r.length_put]; omega)]
  put_frame p b i j h := by
    have hle := le_roundUp r.size f.align
    rw [f.put_frame _ _ _ _ (by omega), r.put_frame _ _ _ _ (by omega)]
  get_congr b b' i h := by
    have hle := le_roundUp r.size f.align
    rw [r.get_congr b b' i fun j hlo hhi => h j hlo (by omega),
      f.get_congr b b' _ fun j hlo hhi => h j (by omega) (by omega)]
  get_drop b k i := by rw [r.get_drop, f.get_drop, Nat.add_assoc]

def padded (r : CType α) : CType α where
  size := roundUp r.size r.align
  align := r.align
  get := r.get
  put := r.put
  length_put := r.length_put
  get_put a b i h := by
    have hle := le_roundUp r.size r.align
    exact r.get_put a b i (by omega)
  put_frame a b i j h := by
    have hle := le_roundUp r.size r.align
    exact r.put_frame a b i j (by omega)
  get_congr b b' i h := by
    have hle := le_roundUp r.size r.align
    exact r.get_congr b b' i fun j hlo hhi => h j hlo (by omega)
  get_drop := r.get_drop

def putAll (r : CType α) : (n : ℕ) → (Fin n → α) → List UInt8 → ℕ → List UInt8
  | 0, _, b, _ => b
  | n + 1, v, b, i =>
      r.put (v (Fin.last n)) (putAll r n (fun j => v j.castSucc) b i) (i + r.size * n)

variable (r : CType α)

theorem length_putAll (n : ℕ) (v : Fin n → α) (b : List UInt8) (i : ℕ) :
    (r.putAll n v b i).length = b.length := by
  induction n with
  | zero => rfl
  | succ n ih =>
      rw [putAll, r.length_put]
      exact ih _

theorem putAll_frame (n : ℕ) (v : Fin n → α) (b : List UInt8) (i : ℕ) {j : ℕ}
    (h : j < i ∨ i + r.size * n ≤ j) : (r.putAll n v b i).getD j 0 = b.getD j 0 := by
  induction n with
  | zero => rfl
  | succ n ih =>
      rw [Nat.mul_succ] at h
      rw [putAll, r.put_frame _ _ _ _ (by omega)]
      exact ih _ (by omega)

theorem get_putAll (n : ℕ) (v : Fin n → α) (b : List UInt8) (i : ℕ)
    (h : i + r.size * n ≤ b.length) (k : Fin n) :
    r.get (r.putAll n v b i) (i + r.size * k) = v k := by
  induction n with
  | zero => exact k.elim0
  | succ n ih =>
      rw [Nat.mul_succ] at h
      rw [putAll]
      induction k using Fin.lastCases with
      | last =>
          rw [Fin.val_last, r.get_put _ _ _ (by rw [length_putAll]; omega)]
      | cast k =>
          have hstep : r.size * k + r.size ≤ r.size * n := by
            rw [← Nat.mul_succ]
            exact Nat.mul_le_mul_left _ k.isLt
          rw [Fin.val_castSucc, r.get_put_of_disjoint r _ _ (Or.inl (by omega))]
          exact ih (fun j => v j.castSucc) (by omega) k

def array (n : ℕ) : CType (Vector α n) where
  size := r.size * n
  align := r.align
  get b i := Vector.ofFn fun j => r.get b (i + r.size * j)
  put v b i := r.putAll n (fun j => v[j]) b i
  length_put v b i := r.length_putAll n _ b i
  get_put v b i h := by
    ext k hk
    rw [Vector.getElem_ofFn]
    exact r.get_putAll n _ b i h ⟨k, hk⟩
  put_frame v b i j h := r.putAll_frame n _ b i h
  get_congr b b' i h := by
    congr 1
    funext k
    have hstep : r.size * k + r.size ≤ r.size * n := by
      rw [← Nat.mul_succ]
      exact Nat.mul_le_mul_left _ k.isLt
    exact r.get_congr b b' _ fun j hlo hhi => h j (by omega) (by omega)
  get_drop b k i := by
    congr 1
    funext j
    rw [r.get_drop, Nat.add_assoc]

/-- A value is read from a copy of its bytes as it is read in place. -/
theorem get_copy (b : List UInt8) (i : ℕ) :
    r.get ((b.drop i).take r.size) 0 = r.get b i := by
  rw [← Nat.add_zero i, ← r.get_drop, Nat.add_zero]
  apply r.get_congr
  intro j _ hhi
  rw [List.getD_eq_getElem?_getD, List.getD_eq_getElem?_getD,
    List.getElem?_take_of_lt (by omega)]

/-- A 32-bit word, its least significant byte first. -/
def u32 : CType UInt32 :=
  ((((u8.snoc u8).snoc u8).snoc u8).view
    (fun p => UInt32.ofNat (p.1.1.1.toNat + 2 ^ 8 * p.1.1.2.toNat + 2 ^ 16 * p.1.2.toNat +
      2 ^ 24 * p.2.toNat))
    (fun x => (((UInt8.ofNat x.toNat, UInt8.ofNat (x.toNat / 2 ^ 8)),
      UInt8.ofNat (x.toNat / 2 ^ 16)), UInt8.ofNat (x.toNat / 2 ^ 24)))
    fun x => by
      have hx := x.toNat_lt
      apply UInt32.toNat_inj.mp
      simp only [UInt8.toNat_ofNat', UInt32.toNat_ofNat']
      omega).aligned 4

/-- A 64-bit word, its lower half first. -/
def u64 : CType UInt64 :=
  ((u32.snoc u32).view (fun p => UInt64.ofNat (p.1.toNat + 2 ^ 32 * p.2.toNat))
    (fun x => (UInt32.ofNat x.toNat, UInt32.ofNat (x.toNat / 2 ^ 32)))
    fun x => by
      have hx := x.toNat_lt
      apply UInt64.toNat_inj.mp
      simp only [UInt32.toNat_ofNat', UInt64.toNat_ofNat']
      omega).aligned 8

def s32 : CType Int32 := u32.view UInt32.toInt32 Int32.toUInt32 fun _ => rfl
def s64 : CType Int64 := u64.view UInt64.toInt64 Int64.toUInt64 fun _ => rfl

end CType

end Layout
