import Mathlib.Algebra.Order.Ring.Int

/-!
# Operations that may panic

The operations of a program on machine words and vectors that stop it when they fail: indexing,
remainders, sums and differences, shifts, and the growth of a vector, whose bytes must fit a signed
word. Each has one lemma for the case in which it returns.
-/

namespace Checked

inductive Panic
  | outOfBounds
  | divideByZero
  | overflow
  | outOfMemory
  deriving DecidableEq, Repr

variable {α : Type} {xs : List α} {a b k i : ℕ} {x y : ℤ}

def index (xs : List α) (i : ℕ) : Except Panic α :=
  match xs[i]? with
  | some x => .ok x
  | none => .error .outOfBounds

def rem (a b : ℕ) : Except Panic ℕ := if b = 0 then .error .divideByZero else .ok (a % b)

def add (a b : ℕ) : Except Panic ℕ := if a + b < 2 ^ 64 then .ok (a + b) else .error .overflow

def sub (a b : ℕ) : Except Panic ℕ := if b ≤ a then .ok (a - b) else .error .overflow

def subInt (x y : ℤ) : Except Panic ℤ :=
  if -2 ^ 31 ≤ x - y ∧ x - y < 2 ^ 31 then .ok (x - y) else .error .overflow

def shr (a k : ℕ) : Except Panic ℕ := if k < 64 then .ok (a >>> k) else .error .overflow

/-- A vector of `n` elements of `size` bytes. -/
def Fits (size n : ℕ) : Prop := size * n < 2 ^ 63

instance (size n : ℕ) : Decidable (Fits size n) := inferInstanceAs (Decidable (_ < _))

def push (size : ℕ) (xs : List α) (x : α) : Except Panic (List α) :=
  if Fits size (xs.length + 1) then .ok (xs ++ [x]) else .error .outOfMemory

theorem Fits.mono {size k n : ℕ} (h : Fits size n) (hle : k ≤ n) : Fits size k :=
  Nat.lt_of_le_of_lt (Nat.mul_le_mul_left size hle) h

theorem index_ok (h : i < xs.length) (x : α) : index xs i = .ok (xs.getD i x) := by
  rw [index, List.getElem?_eq_getElem h, List.getD_eq_getElem?_getD, List.getElem?_eq_getElem h]
  rfl

theorem rem_ok (h : 0 < b) (a : ℕ) : rem a b = .ok (a % b) := if_neg h.ne'

theorem add_ok (h : a + b < 2 ^ 64) : add a b = .ok (a + b) := if_pos h

theorem sub_ok (h : b ≤ a) : sub a b = .ok (a - b) := if_pos h

theorem subInt_ok (h : -2 ^ 31 ≤ x - y ∧ x - y < 2 ^ 31) : subInt x y = .ok (x - y) := if_pos h

theorem shr_ok (h : k < 64) (a : ℕ) : shr a k = .ok (a >>> k) := if_pos h

/-- A computation returns `y` and then `p` holds, or it runs out of memory, which is not so when `m`
holds. -/
def Returns (m : Prop) (c : Except Panic α) (y : α) (p : Prop) : Prop :=
  c = .ok y ∧ p ∨ c = .error .outOfMemory ∧ ¬ m

theorem Returns.bind {β : Type} {c : Except Panic α} {f : α → Except Panic β} {y : α} {z : β}
    {m p q : Prop} (hc : Returns m c y p) (hf : p → Returns m (f y) z q) :
    Returns m (c >>= f) z q := by
  rcases hc with ⟨rfl, hp⟩ | ⟨rfl, hm⟩
  · exact hf hp
  · exact Or.inr ⟨rfl, hm⟩

theorem Returns.imp {c : Except Panic α} {y : α} {m p q : Prop} (h : Returns m c y p)
    (hpq : p → q) : Returns m c y q :=
  h.imp_left (And.imp_right hpq)

theorem returns_ok {y : α} {m p : Prop} (hp : p) : Returns m (.ok y) y p := Or.inl ⟨rfl, hp⟩

theorem push_returns {m : Prop} (size : ℕ) (xs : List α) (x : α)
    (hm : m → Fits size (xs.length + 1)) :
    Returns m (push size xs x) (xs ++ [x]) (Fits size (xs.length + 1)) := by
  unfold push
  split_ifs with h
  · exact returns_ok h
  · exact Or.inr ⟨rfl, fun hm' => h (hm hm')⟩

def MayReturn (c : Except Panic α) (y : α) : Prop := ∀ z, c = .ok z → z = y

theorem MayReturn.bind {β : Type} {c : Except Panic α} {f : α → Except Panic β} {y : α} {z : β}
    (hc : MayReturn c y) (hf : MayReturn (f y) z) : MayReturn (c >>= f) z := by
  intro w hw
  cases c with
  | error e => cases hw
  | ok v =>
      obtain rfl := hc v rfl
      exact hf w hw

theorem mayReturn_ok {y : α} : MayReturn (.ok y) y := fun _ h => (Except.ok.inj h).symm

theorem mayReturn_ite {p : Prop} [Decidable p] {e : Panic} {y : α} :
    MayReturn (if p then .ok y else .error e) y := by
  split_ifs
  · exact mayReturn_ok
  · exact fun _ h => by cases h

theorem index_mayReturn (xs : List α) (i : ℕ) (x : α) : MayReturn (index xs i) (xs.getD i x) := by
  intro z hz
  by_cases h : i < xs.length
  · rw [index_ok h x] at hz
    exact mayReturn_ok z hz
  · rw [index, List.getElem?_eq_none (Nat.le_of_not_lt h)] at hz
    cases hz

theorem rem_mayReturn (a b : ℕ) : MayReturn (rem a b) (a % b) := by
  unfold rem
  split_ifs
  · exact fun _ h => by cases h
  · exact mayReturn_ok

theorem add_mayReturn (a b : ℕ) : MayReturn (add a b) (a + b) := mayReturn_ite

theorem sub_mayReturn (a b : ℕ) : MayReturn (sub a b) (a - b) := mayReturn_ite

theorem subInt_mayReturn (x y : ℤ) : MayReturn (subInt x y) (x - y) := mayReturn_ite

theorem shr_mayReturn (a k : ℕ) : MayReturn (shr a k) (a >>> k) := mayReturn_ite

theorem push_mayReturn (size : ℕ) (xs : List α) (x : α) :
    MayReturn (push size xs x) (xs ++ [x]) := mayReturn_ite

end Checked
