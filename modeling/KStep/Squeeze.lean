import KStep.Trim

/-!
# Squeezing

A list with every run of elements that satisfy a predicate written as one element. Two texts that
differ only in how long such runs are, or in what they are made of, squeeze to the same text.
-/

namespace Squeeze

open Trim

variable {α : Type*} {p q : α → Bool} {d x : α} {s t u : List α}

/-- Every run of elements that satisfy `p` as one `d`. -/
def squeeze (p : α → Bool) (d : α) : List α → List α
  | [] => []
  | x :: s =>
      if p x && s.head?.any p then squeeze p d s else (if p x then d else x) :: squeeze p d s

theorem squeeze_cons_of_neg (hx : p x = false) : squeeze p d (x :: s) = x :: squeeze p d s := by
  rw [squeeze, hx, Bool.false_and, if_neg Bool.false_ne_true, if_neg Bool.false_ne_true]

theorem squeeze_neg_append (hu : ∀ x ∈ u, p x = false) :
    squeeze p d (u ++ s) = u ++ squeeze p d s := by
  induction u with
  | nil => rfl
  | cons x u ih =>
      rw [List.cons_append, squeeze_cons_of_neg (hu x (by simp)),
        ih fun y hy => hu y (by simp [hy]), List.cons_append]

theorem squeeze_of_neg (hs : ∀ x ∈ s, p x = false) : squeeze p d s = s := by
  have h := squeeze_neg_append (d := d) (s := []) hs
  rwa [List.append_nil, squeeze, List.append_nil] at h

/-- A run that is not continued is squeezed by itself. -/
theorem squeeze_append (ht : t.head?.any p = false) :
    squeeze p d (s ++ t) = squeeze p d s ++ squeeze p d t := by
  induction s with
  | nil => rfl
  | cons x s ih =>
      have hhead : (s ++ t).head?.any p = s.head?.any p := by
        cases s with
        | nil => exact ht
        | cons y s => rfl
      rw [List.cons_append, squeeze, squeeze, hhead, ih]
      split_ifs <;> rfl

theorem squeeze_append_cons (hx : p x = false) :
    squeeze p d (s ++ x :: t) = squeeze p d s ++ x :: squeeze p d t := by
  rw [squeeze_append (t := x :: t) hx, squeeze_cons_of_neg hx]

theorem squeeze_of_pos (hne : s ≠ []) (hs : ∀ x ∈ s, p x = true) : squeeze p d s = [d] := by
  induction s with
  | nil => exact absurd rfl hne
  | cons x s ih =>
      have hx : p x = true := hs x (by simp)
      cases s with
      | nil => simp [squeeze, hx]
      | cons y s =>
          have hy : p y = true := hs y (by simp)
          rw [squeeze, if_pos (by simp [hx, hy])]
          exact ih (by simp) fun z hz => hs z (by simp [hz])

theorem head?_dropWhile_any (s : List α) : (s.dropWhile p).head?.any p = false := by
  induction s with
  | nil => rfl
  | cons x s ih =>
      rw [List.dropWhile_cons]
      split_ifs with hx
      · exact ih
      · exact Bool.eq_false_iff.mpr hx

theorem squeeze_cons_of_pos (hx : p x = true) :
    squeeze p d (x :: s) = d :: squeeze p d (s.dropWhile p) := by
  have hsplit : x :: s = (x :: s.takeWhile p) ++ s.dropWhile p := by
    rw [List.cons_append, List.takeWhile_append_dropWhile]
  rw [hsplit, squeeze_append (head?_dropWhile_any s), squeeze_of_pos (by simp)]
  · rfl
  · intro y hy
    rcases List.mem_cons.mp hy with rfl | hy
    · exact hx
    · exact List.mem_takeWhile_imp hy

theorem head?_squeeze (s : List α) :
    (squeeze p d s).head? = s.head?.map fun x => if p x then d else x := by
  induction s with
  | nil => rfl
  | cons x s ih =>
      rw [squeeze]
      split_ifs with hrun
      · rw [ih]
        cases s with
        | nil => simp at hrun
        | cons y s =>
            simp only [List.head?_cons, Option.any_some, Bool.and_eq_true] at hrun
            simp [hrun.1, hrun.2]
      all_goals simp [*]

theorem squeeze_eq_nil_iff : squeeze p d s = [] ↔ s = [] := by
  rw [← List.head?_eq_none_iff, head?_squeeze, Option.map_eq_none_iff, List.head?_eq_none_iff]

theorem squeeze_all (hd : q d = true) (hs : ∀ x ∈ s, q x = true) :
    ∀ x ∈ squeeze p d s, q x = true := by
  induction s with
  | nil => simp [squeeze]
  | cons x s ih =>
      have hrest := ih fun y hy => hs y (by simp [hy])
      rw [squeeze]
      split_ifs
      · exact hrest
      · exact List.forall_mem_cons.mpr ⟨hd, hrest⟩
      · exact List.forall_mem_cons.mpr ⟨hs x (by simp), hrest⟩

/-- Squeezing keeps a text free of runs, and makes no text so. -/
theorem squeeze_clean_iff (hd : p d = true) :
    (∀ x ∈ squeeze p d s, p x = false) ↔ ∀ x ∈ s, p x = false := by
  constructor
  · intro h
    induction s with
    | nil => simp
    | cons x s ih =>
        by_cases hx : p x = true
        · rw [squeeze_cons_of_pos hx] at h
          exact absurd (hd.symm.trans (h d (by simp))) (by simp)
        · rw [Bool.not_eq_true] at hx
          rw [squeeze_cons_of_neg hx, List.forall_mem_cons] at h
          exact List.forall_mem_cons.mpr ⟨hx, ih h.2⟩
  · intro h
    rwa [squeeze_of_neg h]

/-- A property that only texts without runs have is kept and made by no squeezing. -/
theorem squeeze_iff_of_clean {P : List α → Prop} (hd : p d = true)
    (hP : ∀ s, P s → ∀ x ∈ s, p x = false) : P (squeeze p d s) ↔ P s := by
  constructor
  · intro h
    rwa [squeeze_of_neg ((squeeze_clean_iff hd).mp (hP _ h))] at h
  · intro h
    rwa [squeeze_of_neg (hP s h)]

section Wider

variable (hpq : ∀ x, p x = true → q x = true) (hd : q d = true)
include hpq

theorem neg_of_wider (hx : q x = false) : p x = false := by
  by_contra hpx
  rw [Bool.not_eq_false] at hpx
  exact absurd ((hpq x hpx).symm.trans hx) (by simp)

include hd

theorem dropWhile_squeeze (s : List α) :
    (squeeze p d s).dropWhile q = squeeze p d (s.dropWhile q) := by
  have hhead := head?_dropWhile_any (p := q) s
  have hsplit := List.takeWhile_append_dropWhile (p := q) (l := s)
  have hpos : ∀ x ∈ squeeze p d (s.takeWhile q), q x = true :=
    squeeze_all hd fun x hx => List.mem_takeWhile_imp hx
  rcases hrest : s.dropWhile q with _ | ⟨x, t⟩
  · rw [hrest, List.append_nil] at hsplit
    rw [← hsplit, List.dropWhile_eq_nil_iff.mpr hpos]
    rfl
  · rw [hrest] at hsplit hhead
    have hx : q x = false := hhead
    have hneg := neg_of_wider hpq hx
    rw [← hsplit, squeeze_append_cons hneg, List.dropWhile_append_of_pos hpos,
      squeeze_cons_of_neg hneg, List.dropWhile_cons_of_neg (by simp [hx])]

theorem rdropWhile_squeeze (s : List α) :
    (squeeze p d s).rdropWhile q = squeeze p d (s.rdropWhile q) := by
  have hsplit := List.rdropWhile_append_rtakeWhile (p := q) (l := s)
  have hpos : ∀ x ∈ squeeze p d (s.rtakeWhile q), q x = true :=
    squeeze_all hd fun x hx => List.mem_rtakeWhile_imp hx
  rcases List.eq_nil_or_concat' (s.rdropWhile q) with hrest | ⟨m, c, hrest⟩
  · rw [hrest, List.nil_append] at hsplit
    rw [hsplit] at hpos
    rw [hrest]
    exact List.rdropWhile_eq_nil_iff.mpr hpos
  · have hc : q c = false := by
      have hlast := List.rdropWhile_last_not q s (by rw [hrest]; simp)
      simpa [hrest] using hlast
    have hneg := neg_of_wider hpq hc
    rw [hrest, squeeze_append_cons hneg, squeeze]
    rw [hrest, List.append_assoc, List.singleton_append] at hsplit
    have hend := List.rdropWhile_eq_nil_iff.mpr hpos
    nth_rewrite 1 [← hsplit]
    rw [squeeze_append_cons hneg, rdropWhile_append_cons hc, hend]

/-- Trimming by a wider predicate and squeezing do not depend on their order. -/
theorem trimBy_squeeze (s : List α) : trimBy q (squeeze p d s) = squeeze p d (trimBy q s) := by
  rw [trimBy, trimBy, dropWhile_squeeze hpq hd, rdropWhile_squeeze hpq hd]

end Wider

end Squeeze
