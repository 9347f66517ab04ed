import KStep.CreateLine
import KStep.Fuzz

/-!
# How host and guest read a create line

The host takes the text after the first space for a number and falls back to one; the guest reads
a count, a path or both. They read the same count unless a path follows the count.
-/

namespace KStep.Fuzz

open CString Trim Cli

variable {s t : List Char} {n : ℤ} {v : CliView} {path : Arg}

theorem isWhitespace_of_isspace {c : Char} (h : isspace c = true) : isWhitespace c = true := by
  simp only [isspace, Bool.or_eq_true, Bool.and_eq_true, beq_iff_eq, decide_eq_true_eq] at h
  rcases h with (rfl | h) | h
  · decide
  · simp [isWhitespace, h]
  · simp [isWhitespace, h]

/-- The host trims what the guest trims. -/
theorem trim_eq_trim_strim (t : List Char) : trim t = trim (strim t) := by
  obtain ⟨a, b, ht, ha, hb⟩ := exists_eq_append_trimBy isspace t
  have ha' (c : Char) (hc : c ∈ a) : isWhitespace c = true := isWhitespace_of_isspace (ha c hc)
  have hb' (c : Char) (hc : c ∈ b) : isWhitespace c = true := isWhitespace_of_isspace (hb c hc)
  rw [trim, ht, trimBy_pos_append ha', trimBy_append_pos hb', ← ht]
  rfl

theorem isWhitespace_of_isDigit {c : Char} (h : isDigit c = true) : isWhitespace c = false := by
  have hval : 48 ≤ c.val ∧ c.val ≤ 57 := by simpa [isDigit, Char.le_def] using h
  have h1 : 48 ≤ c.toNat := UInt32.le_iff_toNat_le.mp hval.1
  have h2 : c.toNat ≤ 57 := UInt32.le_iff_toNat_le.mp hval.2
  simp only [isWhitespace, Bool.or_eq_false_iff, Bool.and_eq_false_iff, beq_eq_false_iff_ne,
    decide_eq_false_iff_not]
  omega

theorem isWhitespace_of_isSign {c : Char} (h : c = '-' ∨ c = '+') : isWhitespace c = false := by
  rcases h with rfl | rfl <;> decide

theorem parseDigits_of_kernel {m : ℕ} (h : CString.parseDigits s = some m)
    (hlast : s.getLast? ≠ some '\n') : parseDigits s = some m ∧ ∀ c ∈ s, isDigit c = true := by
  obtain ⟨rfl, hne, hs⟩ := parseDigits_cases h
  rcases hs with hs | hs
  · have hall : ∀ c ∈ s, isDigit c = true := by
      intro c hc
      rw [hs] at hc
      exact List.mem_takeWhile_imp hc
    refine ⟨?_, hall⟩
    rw [parseDigits, if_neg (by rw [hs]; exact hne), if_pos (List.all_eq_true.mpr hall), ← hs]
  · refine absurd ?_ hlast
    rw [hs]
    simp

/-- A number the kernel reads, with no newline after it, is one the host reads. -/
theorem parseI32_of_kstrtoint (h : kstrtoint s = some n) (hlast : s.getLast? ≠ some '\n') :
    parseI32 s = some n ∧ ∀ c ∈ s, isWhitespace c = false := by
  obtain ⟨-, sign, t, m, rfl, hsign, hm, hread⟩ := parseInt_cases h
  have hne : t ≠ [] := by
    rintro rfl
    simp [CString.parseDigits] at hm
  rw [List.getLast?_append_of_ne_nil sign hne] at hlast
  obtain ⟨hdigits, hall⟩ := parseDigits_of_kernel hm hlast
  refine ⟨hread _ hdigits, fun c hc => ?_⟩
  rcases List.mem_append.mp hc with hc | hc
  · refine isWhitespace_of_isSign ?_
    rcases hsign with rfl | rfl | rfl <;> simp_all
  · exact isWhitespace_of_isDigit (hall c hc)

theorem kstrtoint_head {c : Char} (h : kstrtoint (c :: s) = some n) : isWhitespace c = false := by
  obtain ⟨-, sign, t, m, hs, hsign, hm, -⟩ := parseInt_cases h
  rcases hsign with rfl | rfl | rfl
  · obtain ⟨-, hne, -⟩ := parseDigits_cases hm
    rw [List.nil_append] at hs
    rw [← hs, List.takeWhile_cons] at hne
    split_ifs at hne with hc
    · exact isWhitespace_of_isDigit hc
    · exact absurd rfl hne
  · cases hs
    decide
  · cases hs
    decide

theorem parseI32_chars {m : ℤ} (h : parseI32 s = some m) {c : Char} (hc : c ∈ s) :
    isBlank c = false := by
  obtain ⟨-, sign, t, k, rfl, hsign, hk, -⟩ := parseInt_cases h
  rcases List.mem_append.mp hc with hc | hc
  · rcases hsign with rfl | rfl | rfl
    · cases hc
    · rw [List.mem_singleton.mp hc]
      decide
    · rw [List.mem_singleton.mp hc]
      decide
  · simp only [parseDigits] at hk
    split_ifs at hk with hne hall
    by_contra hblank
    have hspace := isWhitespace_of_isspace (isspace_of_isBlank (by simpa using hblank))
    exact absurd (hspace.symm.trans (isWhitespace_of_isDigit (List.all_eq_true.mp hall c hc)))
      (by simp)

theorem parseI32_slash (t : List Char) : parseI32 ('/' :: t) = none := by
  simp [parseI32, parseInt, withSign, parseDigits, isDigit]

/-- A path in the argument of `create` starts with a slash. -/
theorem createPath_some {rest : List Char} (hne : rest ≠ [])
    (h : createPath v (some rest) = .ok path) : path ≠ none ∧ ∃ t, rest = '/' :: t := by
  unfold createPath at h
  split at h
  · rename_i heq
    cases heq
  · rename_i heq
    cases heq
    exact absurd rfl hne
  · rename_i heq
    cases heq
    split at h
    · cases h
    · rename_i name hname
      cases h
      refine ⟨by simp, ?_⟩
      simp only [parseCgroup, takeArg] at hname
      split at hname
      · rename_i name' rest' htake
        have htoken : (strsep isBlank rest).1 = '/' :: name' := by
          simpa using congrArg Prod.fst htake
        rcases strsep_cases (rfl : strsep isBlank rest = (_, _)) with ⟨-, hs⟩ | ⟨d, t, -, -, hs⟩
        · exact ⟨name', hs.trans htoken⟩
        · exact ⟨name' ++ d :: t, by rw [hs, htoken, List.cons_append]⟩
      · cases hname
    · cases h

/-- Trimming on the host keeps the blank between a number and a path. -/
theorem parseI32_count_path {token r : List Char} {b c : Char} (hb : isBlank b = true)
    (hc : isWhitespace c = false) (hr : ∃ t, strim r = '/' :: t) :
    parseI32 (trim ((c :: token) ++ b :: r)) = none := by
  obtain ⟨t, ht⟩ := hr
  obtain ⟨a, z, hsplit, -, -⟩ := exists_eq_append_trimBy isspace r
  have hr' : r = a ++ '/' :: (t ++ z) := by
    rw [strim] at ht
    rw [ht] at hsplit
    exact hsplit
  have htrim : trim ((c :: token) ++ b :: r) =
      c :: (token ++ b :: a) ++ '/' :: (t ++ z).rdropWhile isWhitespace := by
    rw [hr', trim, List.cons_append, trimBy_cons hc, List.cons_append]
    congr 1
    rw [show token ++ b :: (a ++ '/' :: (t ++ z)) = (token ++ b :: a) ++ '/' :: (t ++ z) by simp]
    exact rdropWhile_append_cons (by decide)
  rw [htrim]
  by_contra hsome
  obtain ⟨m, hm⟩ := Option.ne_none_iff_exists'.mp hsome
  exact absurd ((parseI32_chars hm (c := b) (by simp)).symm.trans hb) (by simp)

theorem createCount_cases {rest : Arg} (h : createCount (some s) = .ok (n, rest)) :
    (∃ t, s = '/' :: t ∧ n = 1 ∧ rest = some s) ∨
      ∃ token rest', strsep isBlank s = (token, rest') ∧ kstrtoint token = some n ∧
        rest = rest'.map strim := by
  simp only [createCount] at h
  split_ifs at h with hslash
  · cases h
    obtain ⟨t, ht⟩ := List.head?_eq_some_iff.mp hslash
    exact Or.inl ⟨t, ht, rfl, rfl⟩
  · simp only [takeArg] at h
    split at h
    · rename_i m hm
      cases h
      exact Or.inr ⟨_, _, rfl, hm, rfl⟩
    · cases h

/-- The count of an argument that has been trimmed, when the host reads the same text. -/
theorem host_count_trimmed {c : Char} {rest : Arg} (hs : strim t = c :: s)
    (hcount : createCount (some (c :: s)) = .ok (n, rest)) (hpath : createPath v rest = .ok path) :
    (parseI32 (trim (c :: s))).getD 1 = if path = none then n else 1 := by
  rcases createCount_cases hcount with ⟨t', ht', rfl, rfl⟩ | ⟨token, rest', hsep, hnum, rfl⟩
  · obtain ⟨hsome, -⟩ := createPath_some (by simp) hpath
    have htrim : trim ('/' :: t') = '/' :: t'.rdropWhile isWhitespace := trimBy_cons (by decide)
    rw [ht', htrim, parseI32_slash, if_neg hsome]
    rfl
  · have hlast : isspace ((c :: s).getLast (by simp)) = false := by
      have hkept : trimBy isspace t = c :: s := hs
      have h := trimBy_getLast (p := isspace) (s := t) (by rw [hkept]; simp)
      simpa only [hkept] using h
    rcases strsep_cases hsep with ⟨rfl, hall⟩ | ⟨b, r, rfl, hb, hall⟩
    · cases hpath
      rw [← hall] at hnum
      have hnewline : (c :: s).getLast? ≠ some '\n' := by
        rw [List.getLast?_eq_getLast_of_ne_nil (by simp)]
        intro heq
        rw [Option.some.inj heq] at hlast
        exact absurd hlast (by decide)
      obtain ⟨hread, hchars⟩ := parseI32_of_kstrtoint hnum hnewline
      have htrim : trim (c :: s) = c :: s := by
        have h := trimBy_append_of_neg (u := c :: s) (z := []) (by simp) hchars
        rwa [List.rdropWhile_nil, List.append_nil] at h
      rw [htrim, hread, if_pos rfl]
      rfl
    · have hr : strim r ≠ [] := by
        intro hnil
        have hspaces := trimBy_eq_nil_iff.mp hnil
        have hmem : (c :: s).getLast (by simp) ∈ b :: r := by
          simp only [hall]
          rw [List.getLast_append_of_ne_nil (by simp) (by simp)]
          exact List.getLast_mem _
        rcases List.mem_cons.mp hmem with h | h
        · rw [h, isspace_of_isBlank hb] at hlast
          cases hlast
        · rw [hspaces _ h] at hlast
          cases hlast
      obtain ⟨hsome, hslash⟩ := createPath_some hr hpath
      rw [if_neg hsome, hall]
      rcases token with _ | ⟨d, token⟩
      · simp [kstrtoint, parseInt, withSign, CString.parseDigits] at hnum
      · rw [parseI32_count_path hb (kstrtoint_head hnum) hslash]
        rfl

/-- What the host counts for a line `create ` and `t` whose argument the guest reads as `n` tasks,
with a path or without. -/
theorem host_count (h : createArgs v (lineArg (some t)) = .ok (n, path)) :
    (parseI32 (trim t)).getD 1 = if path = none then n else 1 := by
  rw [trim_eq_trim_strim]
  simp only [createArgs, bind, Except.bind] at h
  split at h
  · cases h
  rename_i count hcount
  split at h
  · cases h
  rename_i path' hpath
  cases h
  rcases hs : strim t with _ | ⟨c, s⟩
  · simp only [lineArg, Option.map_some, hs] at hcount
    cases hcount
    cases hpath
    rfl
  · simp only [lineArg, Option.map_some, hs] at hcount
    exact host_count_trimmed hs hcount hpath

end KStep.Fuzz
