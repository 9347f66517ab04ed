import Mathlib.Data.List.Basic

/-!
# The lines of a stream

A stream is cut at its separators. The lines are the parts that a separator ends; what follows the
last separator is not yet one.
-/

namespace Lines

variable {α : Type*} {sep : α} {w rest : List α} {ws : List (List α)}

def lines [BEq α] (sep : α) (stream : List α) : List (List α) := (stream.splitOn sep).dropLast

def unlines (sep : α) (ws : List (List α)) : List α := (ws.map (· ++ [sep])).flatten

theorem unlines_concat : unlines sep (ws ++ [w]) = unlines sep ws ++ (w ++ [sep]) := by
  simp [unlines]

variable [BEq α] [LawfulBEq α]

theorem lines_of_not_mem (h : sep ∉ w) : lines sep w = [] := by
  rw [lines, List.splitOn_eq_singleton h]
  rfl

theorem lines_append (h : sep ∉ w) : lines sep (w ++ sep :: rest) = w :: lines sep rest := by
  rw [lines, List.splitOn_append_cons_self_of_not_mem h,
    List.dropLast_cons_of_ne_nil (List.splitOn_ne_nil sep rest), lines]

/-- A stream that starts with some lines has them first. -/
theorem lines_unlines_append (h : ∀ w ∈ ws, sep ∉ w) :
    lines sep (unlines sep ws ++ rest) = ws ++ lines sep rest := by
  induction ws with
  | nil => rfl
  | cons w ws ih =>
      have hw : sep ∉ w := h w List.mem_cons_self
      have hstream : unlines sep (w :: ws) ++ rest = w ++ sep :: (unlines sep ws ++ rest) := by
        simp [unlines]
      rw [hstream, lines_append hw, ih fun v hv => h v (List.mem_cons_of_mem _ hv),
        List.cons_append]

theorem lines_unlines (h : ∀ w ∈ ws, sep ∉ w) : lines sep (unlines sep ws) = ws := by
  have happend : lines sep (unlines sep ws ++ []) = ws ++ lines sep [] := lines_unlines_append h
  have hnil : lines sep ([] : List α) = [] := lines_of_not_mem List.not_mem_nil
  rwa [List.append_nil, hnil, List.append_nil] at happend

/-- Nothing follows the last separator. -/
theorem splitOn_unlines (h : ∀ w ∈ ws, sep ∉ w) : (unlines sep ws).splitOn sep = ws ++ [[]] := by
  induction ws with
  | nil => rfl
  | cons w ws ih =>
      have hstream : unlines sep (w :: ws) = w ++ sep :: unlines sep ws := by simp [unlines]
      rw [hstream, List.splitOn_append_cons_self_of_not_mem (h w List.mem_cons_self),
        ih fun v hv => h v (List.mem_cons_of_mem _ hv), List.cons_append]

omit [BEq α] [LawfulBEq α] in
/-- Every stream is some lines and what follows them. -/
theorem exists_unlines (sep : α) (stream : List α) :
    ∃ ws w, stream = unlines sep ws ++ w ∧ (∀ v ∈ ws, sep ∉ v) ∧ sep ∉ w := by
  induction stream with
  | nil => exact ⟨[], [], rfl, fun v hv => absurd hv List.not_mem_nil, List.not_mem_nil⟩
  | cons c stream ih =>
      obtain ⟨ws, w, rfl, hws, hw⟩ := ih
      by_cases hc : c = sep
      · refine ⟨[] :: ws, w, by simp [unlines, hc], fun v hv => ?_, hw⟩
        rcases List.mem_cons.mp hv with rfl | hv
        · exact List.not_mem_nil
        · exact hws v hv
      · have hcons {v : List α} (hv : sep ∉ v) : sep ∉ c :: v := by
          rw [List.mem_cons, not_or]
          exact ⟨Ne.symm hc, hv⟩
        rcases ws with _ | ⟨v, ws⟩
        · exact ⟨[], c :: w, rfl, hws, hcons hw⟩
        · refine ⟨(c :: v) :: ws, w, by simp [unlines], fun u hu => ?_, hw⟩
          rcases List.mem_cons.mp hu with rfl | hu
          · exact hcons (hws v List.mem_cons_self)
          · exact hws u (List.mem_cons_of_mem _ hu)

/-- The lines of a stream that a separator ends make up the stream. -/
theorem lines_concat (stream : List α) :
    unlines sep (lines sep (stream ++ [sep])) = stream ++ [sep] ∧
      ∀ w ∈ lines sep (stream ++ [sep]), sep ∉ w := by
  obtain ⟨ws, w, rfl, hws, hw⟩ := exists_unlines sep stream
  have hall : ∀ v ∈ ws ++ [w], sep ∉ v := by
    intro v hv
    rcases List.mem_append.mp hv with hv | hv
    · exact hws v hv
    · rw [List.mem_singleton.mp hv]
      exact hw
  rw [List.append_assoc, ← unlines_concat, lines_unlines hall]
  exact ⟨rfl, hall⟩

end Lines
