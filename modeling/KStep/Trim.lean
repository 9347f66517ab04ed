import Mathlib.Data.List.DropRight

/-!
# Trimming

A list without the elements at either end that satisfy a predicate.
-/

namespace Trim

variable {α : Type*} {p : α → Bool} {s u z : List α} {c : α}

def trimBy (p : α → Bool) (s : List α) : List α := (s.dropWhile p).rdropWhile p

theorem rdropWhile_append_cons (hc : p c = false) :
    (u ++ c :: z).rdropWhile p = u ++ c :: z.rdropWhile p := by
  induction z using List.reverseRecOn with
  | nil => rw [List.rdropWhile_concat_neg p u c (by simp [hc]), List.rdropWhile_nil]
  | append_singleton z d ih =>
      rw [show u ++ c :: (z ++ [d]) = (u ++ c :: z) ++ [d] by simp, List.rdropWhile_concat,
        List.rdropWhile_concat, ih]
      split_ifs
      · rfl
      · simp

theorem rdropWhile_append_of_pos (hz : ∀ x ∈ z, p x = true) :
    (u ++ z).rdropWhile p = u.rdropWhile p := by
  induction z using List.reverseRecOn with
  | nil => rw [List.append_nil]
  | append_singleton z d ih =>
      rw [← List.append_assoc, List.rdropWhile_concat_pos p _ d (hz d (by simp))]
      exact ih fun x hx => hz x (by simp [hx])

theorem rdropWhile_append_of_neg (hu : ∀ x ∈ u, p x = false) :
    (u ++ z).rdropWhile p = u ++ z.rdropWhile p := by
  rcases List.eq_nil_or_concat' u with rfl | ⟨u', c, rfl⟩
  · simp
  · have h := rdropWhile_append_cons (u := u') (z := z) (hu c (by simp))
    simpa using h

/-- From its first element kept on, only the right end is trimmed. -/
theorem trimBy_cons (hc : p c = false) : trimBy p (c :: z) = c :: z.rdropWhile p := by
  rw [trimBy, List.dropWhile_cons_of_neg (by simp [hc])]
  exact rdropWhile_append_cons (u := []) hc

theorem trimBy_append_of_neg (hne : u ≠ []) (hu : ∀ x ∈ u, p x = false) :
    trimBy p (u ++ z) = u ++ z.rdropWhile p := by
  obtain ⟨c, w, rfl⟩ := List.exists_cons_of_ne_nil hne
  rw [List.cons_append, trimBy_cons (hu c (by simp)),
    rdropWhile_append_of_neg fun x hx => hu x (by simp [hx]), List.cons_append]

theorem trimBy_pos_append (hu : ∀ x ∈ u, p x = true) : trimBy p (u ++ s) = trimBy p s := by
  rw [trimBy, List.dropWhile_append_of_pos hu, trimBy]

theorem trimBy_append_pos (hz : ∀ x ∈ z, p x = true) : trimBy p (s ++ z) = trimBy p s := by
  rw [trimBy, List.dropWhile_append]
  split_ifs with h
  · have hnil : s.dropWhile p = [] := List.isEmpty_iff.mp h
    have hz' : z.dropWhile p = [] := List.dropWhile_eq_nil_iff.mpr hz
    rw [hz', trimBy, hnil]
  · exact rdropWhile_append_of_pos hz

theorem trimBy_eq_nil_iff : trimBy p s = [] ↔ ∀ x ∈ s, p x = true := by
  rw [trimBy, List.rdropWhile_eq_nil_iff]
  constructor
  · intro h x hx
    rw [← List.takeWhile_append_dropWhile (p := p) (l := s), List.mem_append] at hx
    rcases hx with hx | hx
    · exact List.mem_takeWhile_imp hx
    · exact h x hx
  · exact fun h x hx => h x (List.dropWhile_subset p hx)

theorem trimBy_getLast (h : trimBy p s ≠ []) : p ((trimBy p s).getLast h) = false := by
  exact Bool.eq_false_iff.mpr (List.rdropWhile_last_not p (s.dropWhile p) h)

/-- A text is what is kept between two runs that are trimmed. -/
theorem exists_eq_append_trimBy (p : α → Bool) (s : List α) :
    ∃ a b, s = a ++ (trimBy p s ++ b) ∧ (∀ x ∈ a, p x = true) ∧ ∀ x ∈ b, p x = true := by
  refine ⟨s.takeWhile p, (s.dropWhile p).rtakeWhile p, ?_, fun x hx => List.mem_takeWhile_imp hx,
    fun x hx => List.mem_rtakeWhile_imp hx⟩
  rw [trimBy, List.rdropWhile_append_rtakeWhile, List.takeWhile_append_dropWhile]

end Trim
