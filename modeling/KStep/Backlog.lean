import Mathlib.Data.List.Infix

/-!
# The backlog of a queue

A queue that gains an entry with every arrival and loses one, if it has any, with every departure.
Its backlog stays within a bound exactly when in no stretch of the history the arrivals outnumber
the departures by more than the bound.
-/

namespace Backlog

/-- The backlog after a history, arrivals being `true`, from `n` entries on. -/
def backlog : ℕ → List Bool → ℕ
  | n, [] => n
  | n, true :: l => backlog (n + 1) l
  | n, false :: l => backlog (n - 1) l

def arrivals (l : List Bool) : ℕ := l.count true

def departures (l : List Bool) : ℕ := l.count false

variable {n : ℕ} {l l' : List Bool}

theorem backlog_append : backlog n (l ++ l') = backlog (backlog n l) l' := by
  induction l generalizing n with
  | nil => rfl
  | cons b l ih =>
      cases b
      · exact ih
      · exact ih

theorem add_arrivals_le : n + arrivals l ≤ backlog n l + departures l := by
  induction l generalizing n with
  | nil => rfl
  | cons b l ih =>
      cases b
      · have h := ih (n := n - 1)
        simp only [arrivals, departures, backlog, List.count_cons] at h ⊢
        simp only [beq_iff_eq, Bool.false_eq_true, if_false, if_true]
        omega
      · have h := ih (n := n + 1)
        simp only [arrivals, departures, backlog, List.count_cons] at h ⊢
        simp only [beq_iff_eq, Bool.true_eq_false, if_false, if_true]
        omega

/-- The backlog is what has arrived and not departed since the queue was last empty. -/
theorem exists_suffix_backlog (l : List Bool) :
    ∃ w, w <:+ l ∧ backlog 0 l + departures w = arrivals w := by
  induction l using List.reverseRecOn with
  | nil => exact ⟨[], List.suffix_rfl, rfl⟩
  | append_singleton l b ih =>
      obtain ⟨w, hw, heq⟩ := ih
      have happend : w ++ [b] <:+ l ++ [b] := (List.suffix_append_self_iff).mpr hw
      cases b
      · by_cases hzero : backlog 0 l = 0
        · refine ⟨[], List.nil_suffix, ?_⟩
          simp [backlog_append, backlog, hzero, arrivals, departures]
        · refine ⟨w ++ [false], happend, ?_⟩
          simp only [arrivals, departures, backlog_append, backlog, List.count_append] at heq ⊢
          simp only [List.count_singleton, beq_iff_eq, Bool.false_eq_true, if_false, if_true]
          omega
      · refine ⟨w ++ [true], happend, ?_⟩
        simp only [arrivals, departures, backlog_append, backlog, List.count_append] at heq ⊢
        simp only [List.count_singleton, beq_iff_eq, Bool.true_eq_false, if_false, if_true]
        omega

/-- The backlog stays within `cap` throughout a history exactly when no stretch of the history has
more than `cap` arrivals beyond its departures. -/
theorem backlog_le_iff (l : List Bool) (cap : ℕ) :
    (∀ w, w <+: l → backlog 0 w ≤ cap) ↔
      ∀ w, w <:+: l → arrivals w ≤ departures w + cap := by
  constructor
  · rintro h w ⟨x, y, rfl⟩
    have hle := h (x ++ w) ⟨y, rfl⟩
    rw [backlog_append] at hle
    have hadd := add_arrivals_le (n := backlog 0 x) (l := w)
    omega
  · intro h w hw
    obtain ⟨z, hz, heq⟩ := exists_suffix_backlog w
    have hle := h z (hz.isInfix.trans hw.isInfix)
    omega

end Backlog
