import Mathlib.Data.List.Range
import Mathlib.Data.Vector.Basic

/-!
# Tables of bounded size

A table has room for `cap` rows, of which the first `n` are in use. A row goes behind those in use;
with none left the store falls outside the table. Writers that look first stop, or skip the row.
-/

namespace RowTable

variable {α R : Type*} {cap : ℕ}

def write (rows : Vector R cap) (i : ℕ) (r : R) : Option (Vector R cap) :=
  if h : i < cap then some (rows.set i r h) else none

/-- Overwrite the first `n` rows; `none` if that reaches outside the table. -/
def copy (dst src : Vector R cap) (n : ℕ) : Option (Vector R cap) :=
  if n ≤ cap then some (Vector.ofFn fun i => if i.val < n then src.get i else dst.get i) else none

structure Table (R : Type*) (cap : ℕ) where
  rows : Vector R cap
  n : ℕ
  le : n ≤ cap

/-- The rows of an earlier use, none of them in use. -/
def Table.fresh (rows : Vector R cap) : Table R cap := ⟨rows, 0, Nat.zero_le _⟩

def Table.recs (t : Table R cap) : List R := t.rows.toList.take t.n

def Table.push (t : Table R cap) (r : R) : Option (Table R cap) :=
  if h : t.n < cap then some ⟨t.rows.set t.n r h, t.n + 1, h⟩ else none

def Table.pop (t : Table R cap) : Option (R × Table R cap) :=
  if h : 0 < t.n then
    some (t.rows.get ⟨t.n - 1, by have := t.le; omega⟩, ⟨t.rows, t.n - 1, by have := t.le; omega⟩)
  else none

def Table.offer (t : Table R cap) (r : R) : Option (Table R cap) :=
  if t.n = cap then some t else t.push r

/-- A writer that stops when the table is full, and counts the rows it wrote. -/
def Table.fill : Table R cap → List R → Option (ℕ × Table R cap)
  | t, [] => some (0, t)
  | t, r :: rs => if t.n = cap then some (0, t) else do
      let t ← t.push r
      let (k, t) ← t.fill rs
      return (k + 1, t)

variable {t t' : Table R cap} {rows rows' : Vector R cap}

@[simp] theorem Table.length_recs (t : Table R cap) : t.recs.length = t.n := by
  simp [Table.recs, t.le]

@[simp] theorem Table.recs_fresh (rows : Vector R cap) : (Table.fresh rows).recs = [] := by
  simp [Table.recs, Table.fresh]

@[simp] theorem Table.n_fresh (rows : Vector R cap) : (Table.fresh rows).n = 0 := rfl

theorem take_succ_set {n : ℕ} (h : n < cap) (r : R) :
    (rows.set n r h).toList.take (n + 1) = rows.toList.take n ++ [r] := by
  rw [Vector.toList_set, List.take_set, List.take_succ_eq_append_getElem (by simpa using h),
    List.set_append_right _ _ (by simp)]
  simp [h.le]

theorem exists_write (rows : Vector R cap) {i : ℕ} (h : i < cap) (r : R) :
    ∃ rows', write rows i r = some rows' ∧
      rows'.toList.take (i + 1) = rows.toList.take i ++ [r] :=
  ⟨_, dif_pos h, take_succ_set h r⟩

theorem Table.exists_push (h : t.n < cap) (r : R) :
    ∃ t', t.push r = some t' ∧ t'.recs = t.recs ++ [r] := by
  exact ⟨_, dif_pos h, take_succ_set h r⟩

theorem Table.push_recs {r : R} (h : t.push r = some t') : t'.recs = t.recs ++ [r] := by
  unfold Table.push at h
  split_ifs at h with hn
  cases h
  exact take_succ_set hn r

theorem Table.exists_foldlM_push (l : List R) (t : Table R cap) (h : t.n + l.length ≤ cap) :
    ∃ t', l.foldlM Table.push t = some t' ∧ t'.recs = t.recs ++ l := by
  induction l generalizing t with
  | nil => exact ⟨t, rfl, (List.append_nil _).symm⟩
  | cons r l ih =>
      rw [List.length_cons] at h
      obtain ⟨u, hu, hurecs⟩ := t.exists_push (by omega) r
      have hn : u.n = t.n + 1 := by
        rw [← u.length_recs, hurecs, List.length_append, t.length_recs]
        rfl
      obtain ⟨t', ht', hrecs⟩ := ih u (by omega)
      refine ⟨t', ?_, by rw [hrecs, hurecs, List.append_assoc, List.singleton_append]⟩
      rw [List.foldlM_cons, hu]
      exact ht'

theorem Table.pop_recs {r : R} (h : t.pop = some (r, t')) : t.recs = t'.recs ++ [r] := by
  unfold Table.pop at h
  split_ifs at h with hn
  cases h
  have hlt : t.n - 1 < t.rows.toList.length := by
    rw [Vector.length_toList]
    have := t.le
    omega
  simp only [Table.recs]
  conv_lhs => rw [show t.n = t.n - 1 + 1 by omega]
  rw [List.take_succ_eq_append_getElem hlt]
  rfl

theorem Table.exists_pop (h : 0 < t.n) : ∃ r t', t.pop = some (r, t') := ⟨_, _, dif_pos h⟩

theorem Table.pop_eq_none (h : t.pop = none) : t.recs = [] := by
  unfold Table.pop at h
  split_ifs at h with hn
  rw [Table.recs, Nat.eq_zero_of_not_pos hn, List.take_zero]

theorem Table.exists_offer (t : Table R cap) (r : R) :
    ∃ t', t.offer r = some t' ∧ t'.recs = t.recs ++ [r].take (cap - t.n) := by
  unfold Table.offer
  split_ifs with hfull
  · exact ⟨t, rfl, by simp [hfull]⟩
  · have hroom : t.n < cap := lt_of_le_of_ne t.le hfull
    obtain ⟨t', hpush, hrecs⟩ := t.exists_push hroom r
    refine ⟨t', hpush, ?_⟩
    rw [hrecs, List.take_of_length_le (by simp; omega)]

/-- A loop that offers a row for some of its elements. -/
theorem Table.exists_foldlM_offer (f : α → Option R) (l : List α) (t : Table R cap) :
    ∃ t', l.foldlM (fun t a => match f a with | none => some t | some r => t.offer r) t = some t' ∧
      t'.recs = t.recs ++ (l.filterMap f).take (cap - t.n) := by
  induction l generalizing t with
  | nil => exact ⟨t, rfl, by simp⟩
  | cons a l ih =>
      rw [List.foldlM_cons, List.filterMap_cons]
      rcases hf : f a with _ | r
      · exact ih t
      · obtain ⟨u, hu, hurecs⟩ := t.exists_offer r
        obtain ⟨t', ht', hrecs⟩ := ih u
        refine ⟨t', by simp only [hu, bind, Option.bind, ht'], ?_⟩
        have hn : u.n = t.n + ([r].take (cap - t.n)).length := by
          rw [← u.length_recs, hurecs, List.length_append, t.length_recs]
        rw [hrecs, hurecs, hn, List.append_assoc]
        congr 1
        rcases hroom : cap - t.n with _ | room
        · simp [hroom]
        · simp [show cap - (t.n + 1) = room by omega]

theorem Table.exists_fill (l : List R) (t : Table R cap) :
    ∃ t', t.fill l = some ((l.take (cap - t.n)).length, t') ∧
      t'.recs = t.recs ++ l.take (cap - t.n) := by
  induction l generalizing t with
  | nil => exact ⟨t, by simp [Table.fill], by simp⟩
  | cons r l ih =>
      by_cases hfull : t.n = cap
      · exact ⟨t, by simp [Table.fill, hfull], by simp [hfull]⟩
      · have hroom : t.n < cap := lt_of_le_of_ne t.le hfull
        obtain ⟨u, hu, hurecs⟩ := t.exists_push hroom r
        obtain ⟨t', ht', hrecs⟩ := ih u
        have hn : u.n = t.n + 1 := by
          rw [← u.length_recs, hurecs, List.length_append, t.length_recs]
          rfl
        have htake : (r :: l).take (cap - t.n) = r :: l.take (cap - u.n) := by
          rw [show cap - t.n = cap - u.n + 1 by omega, List.take_succ_cons]
        refine ⟨t', ?_, by rw [hrecs, hurecs, htake, List.append_assoc, List.singleton_append]⟩
        simp only [Table.fill, if_neg hfull, hu, ht', htake, bind, Option.bind, pure,
          List.length_cons]

theorem exists_copy (dst src : Vector R cap) {n : ℕ} (h : n ≤ cap) :
    ∃ rows, copy dst src n = some rows ∧ rows.toList.take n = src.toList.take n := by
  refine ⟨_, if_pos h, List.ext_getElem (by simp) fun i hi _ => ?_⟩
  have hi' : i < n := by
    rw [List.length_take] at hi
    omega
  simp [hi', Vector.get]

end RowTable
