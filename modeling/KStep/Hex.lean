import Mathlib.Data.Nat.Notation
import Mathlib.Tactic.IntervalCases

/-!
# Hexadecimal numbers

A number as text of base 16, with zeros in front up to a width, and the value of such a text, given
by the codes of its characters.
-/

namespace Hex

def digit? (code : ℕ) : Option ℕ :=
  if 48 ≤ code ∧ code ≤ 57 then some (code - 48)
  else if 97 ≤ code ∧ code ≤ 102 then some (code - 87)
  else if 65 ≤ code ∧ code ≤ 70 then some (code - 55)
  else none

def addDigit (n code : ℕ) : Option ℕ := (digit? code).map (16 * n + ·)

def value? (codes : List ℕ) : Option ℕ := codes.foldlM addDigit 0

/-- Lower case, at least `width` digits. -/
def padded (width n : ℕ) : List Char := (Nat.toDigits 16 n).leftpad width '0'

def codes (s : List Char) : List ℕ := s.map Char.toNat

variable {width n d init : ℕ} {s : List Char}

theorem length_padded (hw : 0 < width) (hn : n < 16 ^ width) : (padded width n).length = width := by
  have hlen := (Nat.length_toDigits_le_iff (by decide) hw).mpr hn
  rw [padded, List.leftpad, List.length_append, List.length_replicate]
  omega

theorem addDigit_digitChar (hd : d < 16) : addDigit n d.digitChar.toNat = some (16 * n + d) := by
  have hdigit : digit? d.digitChar.toNat = some d := by
    interval_cases d <;> rfl
  rw [addDigit, hdigit]
  rfl

theorem foldlM_addDigit_zeros (k : ℕ) :
    (codes (List.replicate k '0')).foldlM addDigit 0 = some 0 := by
  induction k with
  | zero => rfl
  | succ k ih => exact ih

theorem value?_append (s t : List Char) :
    value? (codes (s ++ t)) = (value? (codes s)).bind fun n => (codes t).foldlM addDigit n := by
  rw [value?, codes, List.map_append, List.foldlM_append]
  rfl

theorem value?_toDigits (n : ℕ) : value? (codes (Nat.toDigits 16 n)) = some n := by
  induction n using Nat.strongRecOn with
  | ind n ih =>
      by_cases hn : n < 16
      · rw [Nat.toDigits_of_lt_base hn]
        simp only [value?, codes, List.map_cons, List.map_nil, List.foldlM_cons, List.foldlM_nil,
          addDigit_digitChar hn]
        simp
      · rw [Nat.toDigits_of_base_le (by decide) (by omega), value?_append,
          ih (n / 16) (by omega)]
        have hlast : n % 16 < 16 := Nat.mod_lt _ (by decide)
        simp only [codes, List.map_cons, List.map_nil, List.foldlM_cons, List.foldlM_nil,
          Option.bind_some, addDigit_digitChar hlast, bind, pure]
        rw [Nat.div_add_mod]

/-- A padded number reads back, whatever the width. -/
theorem value?_padded (width n : ℕ) : value? (codes (padded width n)) = some n := by
  rw [padded, List.leftpad, value?_append, value?, foldlM_addDigit_zeros, Option.bind_some]
  exact value?_toDigits n

/-- The characters of a padded number are those of one byte. -/
theorem toNat_lt_of_mem_padded {c : Char} (hc : c ∈ padded width n) : c.toNat < 128 := by
  have hdigits (n : ℕ) (c : Char) (hc : c ∈ Nat.toDigits 16 n) : c.toNat < 128 := by
    induction n using Nat.strongRecOn with
    | ind n ih =>
        have hchar (d : ℕ) (hd : d < 16) : d.digitChar.toNat < 128 := by
          interval_cases d <;> decide
        by_cases hn : n < 16
        · rw [Nat.toDigits_of_lt_base hn, List.mem_singleton] at hc
          exact hc ▸ hchar n hn
        · rw [Nat.toDigits_of_base_le (by decide) (by omega), List.mem_append,
            List.mem_singleton] at hc
          rcases hc with hc | rfl
          · exact ih (n / 16) (by omega) hc
          · exact hchar _ (Nat.mod_lt _ (by decide))
  rw [padded, List.leftpad, List.mem_append, List.mem_replicate] at hc
  rcases hc with ⟨-, rfl⟩ | hc
  · decide
  · exact hdigits n c hc

end Hex
