import KStep.Trim
import Mathlib.Data.List.TakeWhile
import Mathlib.Algebra.Order.Ring.Int

/-!
# Kernel string routines

A C string is the list of its characters before the terminating NUL. The routines here are the
string helpers a kernel module uses to take a text apart: `strsep`, `strchr`, `strstarts`,
`strscpy`, `strim` and `kstrtoint` in base ten. A pointer that may be NULL is an `Option`.
-/

namespace CString

open Trim

/-- `strsep(&s, delims)` on a non-NULL `s`: the text before the first delimiter, and what the
cursor is left at, NULL when there was no delimiter. -/
def strsep (delim : Char → Bool) : List Char → List Char × Option (List Char)
  | [] => ([], none)
  | c :: s => if delim c then ([], some s) else
      let (token, rest) := strsep delim s
      (c :: token, rest)

/-- `strchr(s, c)`, as the texts before and after the first `c`. -/
def strchr (c : Char) (s : List Char) : Option (List Char × List Char) :=
  match strsep (· == c) s with
  | (_, none) => none
  | (before, some after) => some (before, after)

/-- `strscpy(buf, s, size)`: what fits `size` bytes with its NUL. -/
def strscpy (size : ℕ) (s : List Char) : List Char := s.take (size - 1)

def strstarts (s start : List Char) : Bool := start.isPrefixOf s

/-- `strstr(s, t)`, as whether `t` occurs. -/
def strstr (s t : List Char) : Bool := s.tails.any t.isPrefixOf

def isspace (c : Char) : Bool :=
  c == ' ' || (9 ≤ c.toNat && c.toNat ≤ 13) || c.toNat == 160

def strim (s : List Char) : List Char := trimBy isspace s

def isDigit (c : Char) : Bool := '0' ≤ c && c ≤ '9'

def digitsValue (s : List Char) : ℕ := s.foldl (fun n c => 10 * n + (c.toNat - '0'.toNat)) 0

/-- `_kstrtoull` in base ten: digits, at least one, then at most a newline. -/
def parseDigits (s : List Char) : Option ℕ :=
  let digits := s.takeWhile isDigit
  if digits = [] then none
  else match s.dropWhile isDigit with
    | [] => some (digitsValue digits)
    | ['\n'] => some (digitsValue digits)
    | _ => none

def withSign (digits : List Char → Option ℕ) : List Char → Option ℤ
  | '-' :: t => (digits t).map fun n : ℕ => -(n : ℤ)
  | '+' :: t => (digits t).map fun n : ℕ => (n : ℤ)
  | t => (digits t).map fun n : ℕ => (n : ℤ)

def parseInt (digits : List Char → Option ℕ) (s : List Char) : Option ℤ :=
  match withSign digits s with
  | some n => if -2 ^ 31 ≤ n ∧ n < 2 ^ 31 then some n else none
  | none => none

def kstrtoint (s : List Char) : Option ℤ := parseInt parseDigits s

example : kstrtoint "2147483647".toList = some 2147483647 := by decide

example : kstrtoint "-+5".toList = none := by decide

variable {delim : Char → Bool} {s token t : List Char} {rest : Option (List Char)} {d : Char}

theorem strsep_token (h : ∀ c ∈ token, delim c = false) : strsep delim token = (token, none) := by
  induction token with
  | nil => rfl
  | cons c token ih =>
      rw [strsep, if_neg (by simp [h c (by simp)]), ih fun c hc => h c (by simp [hc])]

theorem strsep_token_append (h : ∀ c ∈ token, delim c = false) (hd : delim d = true) :
    strsep delim (token ++ d :: t) = (token, some t) := by
  induction token with
  | nil => rw [List.nil_append, strsep, if_pos hd]
  | cons c token ih =>
      rw [List.cons_append, strsep, if_neg (by simp [h c (by simp)]),
        ih fun c hc => h c (by simp [hc])]

theorem strsep_cases (h : strsep delim s = (token, rest)) :
    rest = none ∧ s = token ∨ ∃ d t, rest = some t ∧ delim d = true ∧ s = token ++ d :: t := by
  induction s generalizing token with
  | nil =>
      cases h
      exact Or.inl ⟨rfl, rfl⟩
  | cons c s ih =>
      rw [strsep] at h
      split_ifs at h with hc
      · cases h
        exact Or.inr ⟨c, s, rfl, hc, rfl⟩
      · cases h
        rcases ih rfl with ⟨hrest, hs⟩ | ⟨d, t, hrest, hd, hs⟩
        · exact Or.inl ⟨hrest, by rw [← hs]⟩
        · exact Or.inr ⟨d, t, hrest, hd, by rw [List.cons_append, ← hs]⟩

theorem strsep_subset (h : strsep delim s = (token, rest)) :
    token ⊆ s ∧ ∀ t, rest = some t → t ⊆ s := by
  rcases strsep_cases h with ⟨rfl, rfl⟩ | ⟨d, t, rfl, -, rfl⟩
  · exact ⟨List.Subset.refl _, fun t ht => by cases ht⟩
  · refine ⟨List.subset_append_left _ _, fun u hu => ?_⟩
    cases hu
    exact List.Subset.trans (List.subset_cons_self d t) (List.subset_append_right _ _)

theorem strsep_clean (h : strsep delim s = (token, rest)) : ∀ c ∈ token, delim c = false := by
  induction s generalizing token with
  | nil =>
      cases h
      simp
  | cons c s ih =>
      rw [strsep] at h
      split_ifs at h with hc
      · cases h
        simp
      · cases h
        intro c' hc'
        rcases List.mem_cons.mp hc' with rfl | hmem
        · exact Bool.eq_false_iff.mpr hc
        · exact ih rfl c' hmem

theorem strchr_eq_some_iff {c : Char} {before after : List Char} :
    strchr c s = some (before, after) ↔ c ∉ before ∧ s = before ++ c :: after := by
  constructor
  · intro h
    unfold strchr at h
    split at h
    next => cases h
    next hsep =>
      cases h
      have hclean := strsep_clean hsep
      rcases strsep_cases hsep with ⟨hnone, -⟩ | ⟨d, t, hsome, hd, hs⟩
      · cases hnone
      · cases hsome
        rw [eq_of_beq hd] at hs
        exact ⟨fun hmem => by simpa using hclean c hmem, hs⟩
  · rintro ⟨hclean, rfl⟩
    have hne : ∀ b ∈ before, (b == c) = false := fun b hb =>
      beq_eq_false_iff_ne.mpr fun heq => hclean (heq ▸ hb)
    rw [strchr, strsep_token_append hne (beq_self_eq_true c)]

theorem strim_subset (s : List Char) : strim s ⊆ s := by
  obtain ⟨a, b, hs, -, -⟩ := exists_eq_append_trimBy isspace s
  intro c hc
  rw [hs]
  exact List.mem_append_right _ (List.mem_append_left _ hc)

theorem withSign_cases {digits : List Char → Option ℕ} {n : ℤ} (h : withSign digits s = some n) :
    ∃ sign t m, s = sign ++ t ∧ (sign = [] ∨ sign = ['-'] ∨ sign = ['+']) ∧ digits t = some m ∧
      ∀ digits', digits' t = some m → withSign digits' s = some n := by
  unfold withSign at h
  split at h
  · obtain ⟨m, hm, rfl⟩ := Option.map_eq_some_iff.mp h
    exact ⟨['-'], _, m, rfl, by simp, hm, fun d hd => by simp [withSign, hd]⟩
  · obtain ⟨m, hm, rfl⟩ := Option.map_eq_some_iff.mp h
    exact ⟨['+'], _, m, rfl, by simp, hm, fun d hd => by simp [withSign, hd]⟩
  · rename_i hminus hplus
    obtain ⟨m, hm, rfl⟩ := Option.map_eq_some_iff.mp h
    refine ⟨[], _, m, rfl, by simp, hm, fun d hd => ?_⟩
    rw [withSign]
    · simp only [hd, Option.map_some]
    · exact hminus
    · exact hplus

/-- A number is a sign and digits, and reads the same by any reader of those digits. -/
theorem parseInt_cases {digits : List Char → Option ℕ} {n : ℤ} (h : parseInt digits s = some n) :
    n < 2 ^ 31 ∧ ∃ sign t m, s = sign ++ t ∧ (sign = [] ∨ sign = ['-'] ∨ sign = ['+']) ∧
      digits t = some m ∧ ∀ digits', digits' t = some m → parseInt digits' s = some n := by
  unfold parseInt at h
  split at h
  · rename_i value hvalue
    split_ifs at h with hrange
    cases h
    obtain ⟨sign, t, m, hs, hsign, hm, hread⟩ := withSign_cases hvalue
    refine ⟨hrange.2, sign, t, m, hs, hsign, hm, fun d hd => ?_⟩
    simp only [parseInt, hread d hd, if_pos hrange]
  · cases h

/-- A number ends in a newline or is all digits. -/
theorem parseDigits_cases {n : ℕ} (h : parseDigits s = some n) :
    n = digitsValue (s.takeWhile isDigit) ∧ s.takeWhile isDigit ≠ [] ∧
      (s = s.takeWhile isDigit ∨ s = s.takeWhile isDigit ++ ['\n']) := by
  have hs := List.takeWhile_append_dropWhile (p := isDigit) (l := s)
  simp only [parseDigits] at h
  split_ifs at h with hne
  split at h
  · rename_i hrest
    cases h
    rw [hrest, List.append_nil] at hs
    exact ⟨rfl, hne, Or.inl hs.symm⟩
  · rename_i hrest
    cases h
    rw [hrest] at hs
    exact ⟨rfl, hne, Or.inr hs.symm⟩
  · cases h

end CString
