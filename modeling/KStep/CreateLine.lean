import KStep.TaskTable

/-!
# The lines that create tasks

Which lines reach `cmd_create`, with which argument, and what they do to the table. A line whose
verb is spelled out in front is read with that verb whatever follows.
-/

namespace KStep.Cli

open CString Trim

/-- The argument with which a line reaches `cmd_create`, if it does. -/
def createArgOf (line : List Char) : Option Arg :=
  match strsep isBlank (strim line) with
  | (verb, rest) => if verb = "create".toList then some (lineArg rest) else none

variable {v : CliView} {line verb rest : List Char} {arg path : Arg} {n : ℤ}

theorem runLine_create (h : createArgOf line = some arg) :
    runLine v line = some (cmdCreate v arg) := by
  unfold createArgOf at h
  split at h
  rename_i verb rest hsep
  split_ifs at h with hverb
  cases h
  have hcreate : lookup (commands v) "create".toList = some (cmdCreate v) :=
    lookup_commands (List.mem_of_getElem? (i := 0) rfl)
  have hexecute : execute v (strim line) = cmdCreate v (lineArg rest) := by
    simp only [execute, hsep, hverb, hcreate]
  unfold runLine
  split
  · rename_i hnil
    rw [hnil] at hsep
    cases hsep
    exact absurd hverb (by decide)
  · rename_i l hhash
    rw [hhash] at hsep
    simp only [strsep] at hsep
    rw [if_neg (by decide)] at hsep
    cases hsep
    exact absurd (congrArg List.head? hverb) (by simp)
  · rw [hexecute]

theorem runLine_ne_create (h : createArgOf line = none) :
    runLine v line ≠ some (.ok (.create n path)) := by
  intro hline
  have hexec := runLine_eq_execute hline
  unfold createArgOf at h
  split at h
  rename_i verb rest hsep
  split_ifs at h with hverb
  unfold execute at hexec
  rw [hsep] at hexec
  simp only at hexec
  split at hexec
  · rename_i cmd hcmd
    obtain ⟨name, hname, htext⟩ := commands_verb hcmd hexec
    cases hname
    exact hverb htext.symm
  · simp only [bind, Except.bind] at hexec
    split at hexec
    · cases hexec
    · cases hexec
  · split_ifs at hexec
    cases hexec

section Table

variable {τ : Type} {new : ℕ → τ} {t : List τ}

theorem tableStep_other (h : createArgOf line = none) : tableStep t (v, new, line) = some t := by
  unfold tableStep
  split
  · rename_i hline
    exact absurd hline (runLine_ne_create h)
  · rfl

/-- A count that the guard passes and the table holds is appended; one that it refuses changes
nothing; one whose sum wraps runs out of the table. -/
theorem tableStep_create (ht : t.length ≤ kstepShmTasks) (h : createArgOf line = some arg)
    (hargs : createArgs v arg = .ok (n, path)) :
    tableStep t (v, new, line) =
      if (2 ^ 31 : ℤ) ≤ t.length + n then none
      else if 1 ≤ n ∧ (t.length : ℤ) + n ≤ kstepShmTasks then
        some (t ++ (List.range' 0 n.toNat).map new)
      else some t := by
  have hlt := createArgs_lt hargs
  have hle : (t.length : ℤ) ≤ 64 := by exact_mod_cast ht
  have hargs' : createArgs (v.withTable t) arg = .ok (n, path) := hargs
  have hrequest := createRequest_eq hargs'
  change createRequest _ _ = if n < 1 ∨ _ < wrap32 ((t.length : ℤ) + n) then _ else _ at hrequest
  simp only [tableStep, runLine_create h, cmdCreate, hrequest]
  by_cases hguard : n < 1 ∨ (kstepShmTasks : ℤ) < wrap32 ((t.length : ℤ) + n)
  · simp only [if_pos hguard, Except.map]
    have hsmall : ¬ (2 ^ 31 : ℤ) ≤ t.length + n := by
      intro hover
      rcases hguard with h | h
      · omega
      · have hwrap := (wrap32_le_iff (by omega) hle (by omega) hlt).mpr (Or.inr hover)
        simp only [kstepShmTasks] at h
        omega
    have hno : ¬ (1 ≤ n ∧ (t.length : ℤ) + n ≤ kstepShmTasks) := by
      rintro ⟨hn, hfit⟩
      rcases hguard with h | h
      · omega
      · have hwrap := (wrap32_le_iff (by omega) hle hn hlt).mpr (Or.inl hfit)
        simp only [kstepShmTasks] at h
        omega
    rw [if_neg hsmall, if_neg hno]
  · simp only [if_neg hguard, Except.map]
    rw [not_or, not_lt, not_lt] at hguard
    rcases (wrap32_le_iff (by omega) hle hguard.1 hlt).mp hguard.2 with hfit | hover
    · rw [if_neg (by omega), if_pos ⟨hguard.1, hfit⟩]
      exact fill_eq_some (by simp only [kstepShmTasks]; omega) 0
    · rw [if_pos hover]
      exact fill_eq_none ht (by simp only [kstepShmTasks]; omega) 0

end Table

def IsWord (verb : List Char) : Prop := verb ≠ [] ∧ ∀ c ∈ verb, isspace c = false

instance (verb : List Char) : Decidable (IsWord verb) :=
  decidable_of_iff ((!verb.isEmpty && verb.all fun c => !isspace c) = true) (by simp [IsWord])

theorem isspace_of_isBlank {c : Char} (h : isBlank c = true) : isspace c = true := by
  simp only [isBlank, Bool.or_eq_true, beq_iff_eq] at h
  rcases h with rfl | rfl <;> decide

theorem IsWord.strsep (h : IsWord verb) {tail : List Char}
    (htail : tail = [] ∨ ∃ d t, tail = d :: t ∧ isBlank d = true) :
    CString.strsep isBlank (verb ++ tail) = (verb, tail.tail?) := by
  have hblank (c : Char) (hc : c ∈ verb) : isBlank c = false := by
    by_contra hb
    rw [Bool.not_eq_false] at hb
    exact absurd ((h.2 c hc).symm.trans (isspace_of_isBlank hb)) (by simp)
  rcases htail with rfl | ⟨d, t, rfl, hd⟩
  · rw [List.append_nil]
    exact strsep_token hblank
  · exact strsep_token_append hblank hd

/-- Trimming leaves a verb at the front of a line as it is. -/
theorem IsWord.strim (h : IsWord verb) (tail : List Char) :
    CString.strim (verb ++ tail) = verb ++ tail.rdropWhile isspace :=
  trimBy_append_of_neg h.1 h.2

/-- What trimming leaves of a blank and a text after it. -/
theorem rdropWhile_blank (d : Char) (t : List Char) :
    (d :: t).rdropWhile isspace = [] ∧ CString.strim t = [] ∨
      ∃ t', (d :: t).rdropWhile isspace = d :: t' ∧ CString.strim t' = CString.strim t := by
  rcases List.prefix_cons_iff.mp (List.rdropWhile_prefix isspace (d :: t)) with h | ⟨t', h, -⟩
  · refine Or.inl ⟨h, trimBy_eq_nil_iff.mpr fun c hc => ?_⟩
    exact List.rdropWhile_eq_nil_iff.mp h c (List.mem_cons_of_mem _ hc)
  · refine Or.inr ⟨t', h, ?_⟩
    have hsplit := List.rdropWhile_append_rtakeWhile (p := isspace) (l := d :: t)
    rw [h, List.cons_append, List.cons.injEq] at hsplit
    rw [← hsplit.2]
    exact (trimBy_append_pos fun c hc => List.mem_rtakeWhile_imp hc).symm

/-- A line with its verb in front reaches `cmd_create` only if the verb is `create`. -/
theorem createArgOf_word (h : IsWord verb) (hne : verb ≠ "create".toList) {tail : List Char}
    (htail : tail = [] ∨ ∃ t, tail = ' ' :: t) : createArgOf (verb ++ tail) = none := by
  have htail' : tail.rdropWhile isspace = [] ∨
      ∃ d t, tail.rdropWhile isspace = d :: t ∧ isBlank d = true := by
    rcases htail with rfl | ⟨t, rfl⟩
    · exact Or.inl rfl
    · rcases rdropWhile_blank ' ' t with ⟨h, -⟩ | ⟨t', h, -⟩
      · exact Or.inl h
      · exact Or.inr ⟨' ', t', h, rfl⟩
  simp only [createArgOf, h.strim, h.strsep htail', if_neg hne]

/-- After `create` and a space comes the argument, whatever blanks surround it. -/
theorem createArgOf_create (t : List Char) :
    createArgOf ("create".toList ++ ' ' :: t) = some (lineArg (some t)) := by
  have hword : IsWord "create".toList := by decide
  rcases rdropWhile_blank ' ' t with ⟨h, ht⟩ | ⟨t', h, ht⟩
  · simp only [createArgOf, hword.strim, h, hword.strsep (Or.inl rfl), if_true, lineArg,
      Option.map_some, ht]
    rfl
  · simp only [createArgOf, hword.strim, h, hword.strsep (Or.inr ⟨' ', t', rfl, rfl⟩), if_true,
      lineArg, List.tail?_cons, Option.map_some, ht]

end KStep.Cli
