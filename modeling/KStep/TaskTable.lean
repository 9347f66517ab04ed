import KStep.Cli
import KStep.Runs

/-!
# The session's task table

`tasks[]` holds the session's tasks in creation order and `ntasks` says how many. `create` adds a
count read from the line to `ntasks` in 32-bit arithmetic before it compares, and then appends one
task after the other. A write past the end of the table has no result here.
-/

namespace KStep.Cli

open CString Runs

variable {τ : Type} {v : CliView} {new : ℕ → τ} {t t' : List τ} {arg path : Arg} {n : ℤ} {k : ℕ}

def push (t : List τ) (p : τ) : Option (List τ) :=
  if t.length < kstepShmTasks then some (t ++ [p]) else none

/-- The loop of `cmd_create` for tasks `i`, `i + 1`, .. of a command, `k` of them left. -/
def fill (new : ℕ → τ) : ℕ → ℕ → List τ → Option (List τ)
  | 0, _, t => some t
  | k + 1, i, t => match push t (new i) with
    | none => none
    | some t' => fill new k (i + 1) t'

/-- The tasks of a `create` that are numbered: those before the one that is refused. -/
def createdTasks (n : ℤ) (path : Arg) (refused : Option ℕ) : ℕ :=
  match path, refused with
  | some _, some j => min n.toNat j
  | _, _ => n.toNat

/-- The view in which the table says how many tasks there are. -/
def CliView.withTable (v : CliView) (t : List τ) : CliView := { v with ntasks := t.length }

/-- `cmd_create`, with task creation and the move into the cgroup succeeding: the error it replies
with, if any, and the table it leaves. -/
def createTasks (v : CliView) (new : ℕ → τ) (t : List τ) (arg : Arg) :
    Option (Option String × List τ) :=
  match createRequest (v.withTable t) arg with
  | .error msg => some (some msg, t)
  | .ok (n, _) => (fill new n.toNat 0 t).map fun t' => (none, t')

def tableStep (t : List τ) (e : CliView × (ℕ → τ) × List Char) : Option (List τ) :=
  match runLine (e.1.withTable t) e.2.2 with
  | some (.ok (.create n _)) => fill e.2.1 n.toNat 0 t
  | _ => some t

theorem fill_eq_some (h : t.length + k ≤ kstepShmTasks) (i : ℕ) :
    fill new k i t = some (t ++ (List.range' i k).map new) := by
  induction k generalizing t i with
  | zero => simp [fill]
  | succ k ih =>
      have hlt : t.length < kstepShmTasks := by omega
      simp only [fill, push, if_pos hlt]
      rw [ih (by simp only [List.length_append, List.length_singleton]; omega)]
      simp [List.range'_succ]

theorem fill_mem {k i : ℕ} (h : fill new k i t = some t') {a : τ}
    (ha : a ∈ t') : a ∈ t ∨ ∃ j, a = new j := by
  induction k generalizing t i with
  | zero =>
      cases h
      exact Or.inl ha
  | succ k ih =>
      simp only [fill, push] at h
      split at h
      · cases h
      · rename_i u hu
        split_ifs at hu
        cases hu
        rcases ih h with hmem | hnew
        · rcases List.mem_append.mp hmem with hmem | hmem
          · exact Or.inl hmem
          · exact Or.inr ⟨i, List.mem_singleton.mp hmem⟩
        · exact Or.inr hnew

theorem mem_modify_cases {f : τ → τ} {p : ℕ} {a : τ}
    (h : a ∈ t.modify p f) : a ∈ t ∨ ∃ b ∈ t, a = f b := by
  obtain ⟨i, hi⟩ := List.mem_iff_getElem?.mp h
  rw [List.getElem?_modify] at hi
  obtain ⟨b, hb, heq⟩ := Option.map_eq_some_iff.mp hi
  have hmem : b ∈ t := List.mem_of_getElem? hb
  split_ifs at heq
  · exact Or.inr ⟨b, hmem, heq.symm⟩
  · exact Or.inl (heq ▸ hmem)

theorem fill_eq_none (ht : t.length ≤ kstepShmTasks) (h : kstepShmTasks < t.length + k) (i : ℕ) :
    fill new k i t = none := by
  induction k generalizing t i with
  | zero => omega
  | succ k ih =>
      simp only [fill, push]
      split_ifs with hlt
      · exact ih (by simp only [List.length_append, List.length_singleton]; omega)
          (by simp only [List.length_append, List.length_singleton]; omega) (i + 1)
      · rfl

theorem createRequest_eq (h : createArgs v arg = .ok (n, path)) : createRequest v arg =
    if n < 1 ∨ (kstepShmTasks : ℤ) < wrap32 (v.ntasks + n) then .error "too many tasks"
    else .ok (n, path) := by
  simp only [createRequest, h, bind, Except.bind]
  rfl

theorem createRequest_ok (h : createRequest v arg = .ok (n, path)) :
    createArgs v arg = .ok (n, path) ∧ 1 ≤ n ∧ wrap32 (v.ntasks + n) ≤ kstepShmTasks := by
  rcases hargs : createArgs v arg with msg | ⟨n', path'⟩
  · simp only [createRequest, hargs, bind, Except.bind] at h
    cases h
  · rw [createRequest_eq hargs] at h
    split_ifs at h with hguard
    cases h
    rw [not_or] at hguard
    exact ⟨rfl, by omega, by omega⟩

theorem kstrtoint_lt {s : List Char} (h : kstrtoint s = some n) : n < 2 ^ 31 :=
  (parseInt_cases h).1

theorem createCount_lt {rest : Arg} (h : createCount arg = .ok (n, rest)) : n < 2 ^ 31 := by
  unfold createCount at h
  split at h
  · cases h
    decide
  · split_ifs at h
    · cases h
      decide
    · split at h
      split at h
      · rename_i heq
        cases h
        obtain ⟨num, -, hnum⟩ := Option.bind_eq_some_iff.mp heq
        exact kstrtoint_lt hnum
      · cases h

theorem createArgs_lt (h : createArgs v arg = .ok (n, path)) : n < 2 ^ 31 := by
  simp only [createArgs, bind, Except.bind] at h
  split at h
  · cases h
  · rename_i count hcount
    split at h
    · cases h
    · cases h
      exact createCount_lt hcount

/-- The guard's sum is exact below `2 ^ 31` and negative from there on. -/
theorem wrap32_le_iff {a : ℤ} (ha : 0 ≤ a) (hle : a ≤ 64) (hn : 1 ≤ n) (hlt : n < 2 ^ 31) :
    wrap32 (a + n) ≤ 64 ↔ a + n ≤ 64 ∨ 2 ^ 31 ≤ a + n := by
  simp only [wrap32, Int.bmod_def]
  split_ifs <;> omega

/-- What `create` is to do with a count of `n`: refuse it and leave the table, or append exactly
`n` tasks within it. -/
def CreateKept (v : CliView) (new : ℕ → τ) (t : List τ) (arg : Arg) (n : ℤ) : Prop :=
  ∃ reply t', createTasks v new t arg = some (reply, t') ∧
    (reply ≠ none ∧ t' = t ∨
      reply = none ∧ t <+: t' ∧ (t'.length : ℤ) = t.length + n ∧ t'.length ≤ kstepShmTasks)

theorem createKept_iff (ht : t.length ≤ kstepShmTasks)
    (h : createArgs (v.withTable t) arg = .ok (n, path)) :
    CreateKept v new t arg n ↔ (t.length : ℤ) + n < 2 ^ 31 := by
  have hlt := createArgs_lt h
  have hle : (t.length : ℤ) ≤ 64 := by exact_mod_cast ht
  have hrequest := createRequest_eq h
  change createRequest _ _ = if n < 1 ∨ _ < wrap32 ((t.length : ℤ) + n) then _ else _ at hrequest
  by_cases hguard : n < 1 ∨ (kstepShmTasks : ℤ) < wrap32 ((t.length : ℤ) + n)
  · rw [if_pos hguard] at hrequest
    have hcond : (t.length : ℤ) + n < 2 ^ 31 := by
      by_contra hcond
      have hn : 1 ≤ n := by omega
      have hwrap := (wrap32_le_iff (by omega) hle hn hlt).mpr (Or.inr (not_lt.mp hcond))
      rcases hguard with h | h
      · omega
      · simp only [kstepShmTasks] at h
        omega
    refine iff_of_true ⟨some "too many tasks", t, ?_, Or.inl ⟨by simp, rfl⟩⟩ hcond
    simp only [createTasks, hrequest]
  · rw [if_neg hguard] at hrequest
    rw [not_or, not_lt, not_lt] at hguard
    have hcases := (wrap32_le_iff (by omega) hle hguard.1 hlt).mp hguard.2
    rcases hcases with hfit | hover
    · have hfill : fill new n.toNat 0 t = _ :=
        fill_eq_some (by simp only [kstepShmTasks]; omega) 0
      have hcreate : createTasks v new t arg =
          some (none, t ++ (List.range' 0 n.toNat).map new) := by
        simp only [createTasks, hrequest, hfill, Option.map_some]
      refine iff_of_true ⟨none, _, hcreate, Or.inr ⟨rfl, List.prefix_append _ _, ?_, ?_⟩⟩
        (by omega)
      · simp only [List.length_append, List.length_map, List.length_range']
        omega
      · simp only [List.length_append, List.length_map, List.length_range', kstepShmTasks]
        omega
    · have hfill : fill new n.toNat 0 t = none :=
        fill_eq_none ht (by simp only [kstepShmTasks]; omega) 0
      refine iff_of_false ?_ (by omega)
      rintro ⟨reply, t', hcreate, -⟩
      simp only [createTasks, hrequest, hfill, Option.map_none] at hcreate
      cases hcreate

/-- A `create` of the line, with its count, stays below the range where the guard's sum wraps. -/
def CreateFits (t : List τ) (e : CliView × (ℕ → τ) × List Char) : Prop :=
  ∀ n path, runLine (e.1.withTable t) e.2.2 = some (.ok (.create n path)) →
    (t.length : ℤ) + n < 2 ^ 31

theorem fill_cases {k i : ℕ} (ht : t.length ≤ kstepShmTasks) (h : fill new k i t = some t') :
    t <+: t' ∧ t'.length = t.length + k ∧ t.length + k ≤ kstepShmTasks := by
  by_cases hfit : t.length + k ≤ kstepShmTasks
  · rw [fill_eq_some hfit] at h
    cases h
    exact ⟨List.prefix_append _ _, by simp, hfit⟩
  · rw [fill_eq_none ht (not_le.mp hfit)] at h
    cases h

theorem tableStep_cases {e : CliView × (ℕ → τ) × List Char} (h : tableStep t e = some t') :
    t' = t ∨ ∃ n, fill e.2.1 n 0 t = some t' := by
  unfold tableStep at h
  split at h
  · exact Or.inr ⟨_, h⟩
  · cases h
    exact Or.inl rfl

/-- The table only grows, at its end and within its bound. -/
theorem tableStep_grows {e : CliView × (ℕ → τ) × List Char} (ht : t.length ≤ kstepShmTasks)
    (h : tableStep t e = some t') : t <+: t' ∧ t'.length ≤ kstepShmTasks := by
  rcases tableStep_cases h with rfl | ⟨n, hfill⟩
  · exact ⟨List.prefix_rfl, ht⟩
  · obtain ⟨hgrown, hlen, hfit⟩ := fill_cases ht hfill
    exact ⟨hgrown, hlen ▸ hfit⟩

theorem run_tableStep_grows {l : List (CliView × (ℕ → τ) × List Char)}
    (ht : t.length ≤ kstepShmTasks) (h : run tableStep t l = some t') :
    t <+: t' ∧ t'.length ≤ kstepShmTasks := by
  refine run_invariant (I := fun u => t <+: u ∧ u.length ≤ kstepShmTasks) ?_ h
    ⟨List.prefix_rfl, ht⟩
  rintro u e u' hstep ⟨hgrown, hu⟩
  obtain ⟨hgrow, hu'⟩ := tableStep_grows hu hstep
  exact ⟨hgrown.trans hgrow, hu'⟩

/-- A line whose `create` stays below the wrapping range writes inside the table. -/
theorem tableStep_fits {e : CliView × (ℕ → τ) × List Char} (ht : t.length ≤ kstepShmTasks)
    (he : CreateFits t e) : ∃ t', tableStep t e = some t' ∧ t'.length ≤ kstepShmTasks := by
  suffices hsome : ∃ t', tableStep t e = some t' by
    obtain ⟨t', h⟩ := hsome
    exact ⟨t', h, (tableStep_grows ht h).2⟩
  unfold tableStep
  split
  · rename_i n path hline
    obtain ⟨arg, hrequest⟩ := execute_create (runLine_eq_execute hline)
    obtain ⟨hargs, hn, hguard⟩ := createRequest_ok hrequest
    have hle : (t.length : ℤ) ≤ 64 := by exact_mod_cast ht
    have hcases := (wrap32_le_iff (by omega) hle hn (createArgs_lt hargs)).mp hguard
    have hlt := he n path hline
    exact ⟨_, fill_eq_some (by simp only [kstepShmTasks]; omega) 0⟩
  · exact ⟨t, rfl⟩

/-- In every session the table holds at most 64 tasks, and a `create` of `n` tasks is refused or
appends exactly `n` within the table if and only if the guard's sum does not wrap. While it never
does, no line writes outside the table and every task keeps its number. -/
theorem create_kept_iff_no_wrap (τ : Type) :
    (∀ (l : List (CliView × (ℕ → τ) × List Char)) (t : List τ), run tableStep [] l = some t →
      t.length ≤ kstepShmTasks ∧ ∀ v new arg n path,
        createArgs (v.withTable t) arg = .ok (n, path) →
          (CreateKept v new t arg n ↔ (t.length : ℤ) + n < 2 ^ 31)) ∧
    ∀ l : List (CliView × (ℕ → τ) × List Char), Always tableStep CreateFits [] l →
      ∃ t, run tableStep [] l = some t ∧ t.length ≤ kstepShmTasks ∧
        ∀ l₁ l₂ t', l = l₁ ++ l₂ → run tableStep [] l₁ = some t' → t' <+: t := by
  have hempty : ([] : List τ).length ≤ kstepShmTasks := Nat.zero_le _
  refine ⟨fun l t h => ?_, fun l hl => ?_⟩
  · have ht := (run_tableStep_grows hempty h).2
    exact ⟨ht, fun v new arg n path hargs => createKept_iff ht hargs⟩
  · obtain ⟨t, hrun, ht⟩ := run_of_always (fun _ _ => tableStep_fits) hempty hl
    refine ⟨t, hrun, ht, ?_⟩
    rintro l₁ l₂ t' rfl hfirst
    rw [run_append hfirst] at hrun
    exact (run_tableStep_grows (run_tableStep_grows hempty hfirst).2 hrun).1

theorem create_wraps : ∃ t : List ℕ,
    run tableStep [] [(plainView, id, "create".toList)] = some t ∧
      createArgs (plainView.withTable t) (some "2147483647".toList) = .ok (2147483647, none) ∧
      ¬ CreateKept plainView id t (some "2147483647".toList) 2147483647 := by
  refine ⟨[0], rfl, rfl, fun h => ?_⟩
  have hargs : createArgs (plainView.withTable [0]) (some "2147483647".toList) =
    .ok (2147483647, none) := rfl
  have hlt := (createKept_iff (by decide) hargs).mp h
  exact absurd hlt (by decide)

theorem create_kept_two_lines : ∃ t : List ℕ, run tableStep []
    [(plainView, id, "create 2".toList), (plainView, id, "create 63".toList)] = some t ∧
      CreateKept plainView id t (some "62".toList) 62 :=
  ⟨[0, 1], rfl, (((create_kept_iff_no_wrap ℕ).1 [(plainView, id, "create 2".toList),
    (plainView, id, "create 63".toList)] [0, 1] rfl).2 plainView id _ 62 none rfl).mpr (by decide)⟩

end KStep.Cli
