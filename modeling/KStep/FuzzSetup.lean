import KStep.FuzzCounts

/-!
# The setup lines on host and guest

The host numbers tasks while it decodes, the guest while it runs the lines. Over the setup lines the
two agree exactly when each line that creates tasks is one both read alike.
-/

namespace KStep.Fuzz

open CString Trim Cli

/-- The guest's table when `g` tasks have been created: the tasks in the order of creation. -/
def ids (g : ℕ) : List ℕ := List.range' 1 g

/-- After every line the guest's table holds the tasks the host believes to exist, and each number
the host may name denotes the task created under it. Line `i` runs in `world i`, with `g` tasks
before the program. -/
def Agrees (world : ℕ → CliView) : ℕ → ℕ → Program → Prop
  | _, _, [] => True
  | i, g, (line, d) :: prog =>
      tableStep (ids g) (world i, (g + 1 + ·), line) = some (ids d.ntasks) ∧
        (∀ n ∈ d.alive, (ids d.ntasks)[n - 1]? = some n) ∧ Agrees world (i + 1) d.ntasks prog

def SpacedCreate (line : Line) : Prop := (splitOnce line).1 = "create".toList

instance (line : Line) : Decidable (SpacedCreate line) := inferInstanceAs (Decidable (_ = _))

def taken (g : ℕ) (n : ℤ) : ℕ := if 1 ≤ n ∧ (g : ℤ) + n ≤ kstepShmTasks then n.toNat else 0

def asksFor (v : CliView) (line : Line) : Option (ℤ × Arg) :=
  (createArgOf line).bind fun arg => (createArgs v arg).toOption

/-- A create the guest takes has a space after its verb, and a path only behind no count or a count
of one; a create it refuses has another separator or asks for no task. -/
def LineAgrees (g : ℕ) (line : Line) (n : ℤ) (path : Arg) : Prop :=
  (g : ℤ) + n < 2 ^ 31 ∧
    if 1 ≤ n ∧ (g : ℤ) + n ≤ kstepShmTasks then SpacedCreate line ∧ (path = none ∨ n = 1)
    else ¬ SpacedCreate line ∨ path = none ∧ n < 1

def SetupAgrees (world : ℕ → CliView) : ℕ → ℕ → List Line → Prop
  | _, _, [] => True
  | i, g, line :: rest => match asksFor (world i) line with
    | none => SetupAgrees world (i + 1) g rest
    | some (n, path) => LineAgrees g line n path ∧ SetupAgrees world (i + 1) (g + taken g n) rest

def setupTotal (world : ℕ → CliView) : ℕ → ℕ → List Line → ℕ
  | _, g, [] => g
  | i, g, line :: rest => match asksFor (world i) line with
    | none => setupTotal world (i + 1) g rest
    | some (n, _) => setupTotal world (i + 1) (g + taken g n) rest

def SetupGrammar (world : ℕ → CliView) : ℕ → List Line → Prop
  | _, [] => True
  | i, line :: rest => (∀ arg, createArgOf line = some arg →
      ∃ n path, createArgs (world i) arg = .ok (n, path)) ∧ SetupGrammar world (i + 1) rest

def Decoder.Numbered (d : Decoder) : Prop := ∀ n ∈ d.alive, 1 ≤ n ∧ n ≤ d.ntasks

variable {world : ℕ → CliView} {v : CliView} {i g : ℕ} {d : Decoder} {line : Line} {n : ℤ}
  {path arg : Arg} {prog : Program}

theorem ids_get {k : ℕ} (h : 1 ≤ k ∧ k ≤ g) : (ids g)[k - 1]? = some k := by
  rw [ids, List.getElem?_range' (by omega)]
  congr 1
  omega

theorem ids_inj {h : ℕ} : ids g = ids h ↔ g = h := by
  constructor
  · intro heq
    simpa [ids] using congrArg List.length heq
  · rintro rfl
    rfl

theorem ids_append (k : ℕ) : ids g ++ (List.range' 0 k).map (g + 1 + ·) = ids (g + k) := by
  rw [ids, ids, List.map_add_range', Nat.add_zero, Nat.add_comm g 1, List.range'_append_1]

theorem Decoder.Numbered.addTasks (hd : d.Numbered) (k : ℕ) : (d.addTasks k).Numbered := by
  intro n hn
  simp only [Decoder.addTasks, List.mem_append, List.mem_range'_1] at hn ⊢
  rcases hn with hn | hn
  · have := hd n hn
    omega
  · omega

theorem Decoder.Numbered.setup (hd : d.Numbered) (line : Line) : (d.setup line).Numbered := by
  unfold Decoder.setup
  split
  split_ifs
  · exact hd.addTasks _
  · exact hd
  · exact hd

theorem spacedCreate_cases (h : SpacedCreate line) :
    ∃ t, (splitOnce line).2 = t ∧ createArgOf line = some (lineArg (some t)) := by
  unfold SpacedCreate splitOnce at h
  simp only [splitOnce]
  rcases strsep_cases (rfl : strsep (· == ' ') line = (_, _)) with
    ⟨hrest, hs⟩ | ⟨b, t, hrest, hb, hs⟩
  · rw [h] at hs
    rw [hrest, hs]
    exact ⟨[], rfl, rfl⟩
  · rw [beq_iff_eq] at hb
    rw [h, hb] at hs
    rw [hrest]
    refine ⟨t, rfl, ?_⟩
    rw [hs]
    exact createArgOf_create t

theorem setup_ntasks (d : Decoder) (line : Line) : (d.setup line).ntasks = d.ntasks +
    if SpacedCreate line then ((parseI32 (trim (splitOnce line).2)).getD 1).toNat else 0 := by
  unfold Decoder.setup
  simp only
  by_cases hspaced : (splitOnce line).1 = "create".toList
  · have hspaced' : SpacedCreate line := hspaced
    rw [if_pos hspaced, if_pos hspaced']
    rfl
  · have hspaced' : ¬ SpacedCreate line := hspaced
    rw [if_neg hspaced, if_neg hspaced']
    split_ifs <;> rfl

theorem setup_other (h : createArgOf line = none) : (d.setup line).ntasks = d.ntasks := by
  have hspaced : ¬ SpacedCreate line := by
    intro hspaced
    obtain ⟨t, -, ht⟩ := spacedCreate_cases hspaced
    exact absurd (h.symm.trans ht) (by simp)
  rw [setup_ntasks, if_neg hspaced, Nat.add_zero]

/-- What the host adds for a setup line that creates tasks. -/
theorem setup_create (harg : createArgOf line = some arg)
    (hargs : createArgs v arg = .ok (n, path)) :
    (d.setup line).ntasks =
      d.ntasks + if SpacedCreate line then (if path = none then n.toNat else 1) else 0 := by
  rw [setup_ntasks]
  by_cases hspaced : SpacedCreate line
  · obtain ⟨t, hrest, ht⟩ := spacedCreate_cases hspaced
    cases harg.symm.trans ht
    rw [if_pos hspaced, if_pos hspaced, hrest, host_count hargs]
    split_ifs <;> rfl
  · rw [if_neg hspaced, if_neg hspaced]

theorem taken_le (hg : g ≤ kstepShmTasks) : g + taken g n ≤ kstepShmTasks := by
  unfold taken
  split_ifs with h
  · have := h.2
    omega
  · exact hg

/-- The condition on a line says that the host adds what the guest takes. -/
theorem lineAgrees_iff : LineAgrees g line n path ↔ (g : ℤ) + n < 2 ^ 31 ∧
    (if SpacedCreate line then (if path = none then n.toNat else 1) else 0) = taken g n := by
  unfold LineAgrees taken
  refine and_congr_right fun _ => ?_
  by_cases htakes : 1 ≤ n ∧ (g : ℤ) + n ≤ kstepShmTasks
  · have hn := htakes.1
    rw [if_pos htakes, if_pos htakes]
    by_cases hspaced : SpacedCreate line
    · by_cases hpath : path = none
      · simp [hspaced, hpath]
      · simp only [hspaced, hpath, true_and, false_or, if_true, if_false]
        omega
    · simp only [hspaced, false_and, if_false, false_iff]
      omega
  · rw [if_neg htakes, if_neg htakes]
    by_cases hspaced : SpacedCreate line
    · by_cases hpath : path = none
      · simp only [hspaced, hpath, not_true_eq_false, true_and, false_or, if_true]
        omega
      · simp [hspaced, hpath]
    · simp [hspaced]

/-- A setup line that creates tasks leaves host and guest agreed exactly when they read it alike. -/
theorem setup_line_iff (hg : d.ntasks ≤ kstepShmTasks) (harg : createArgOf line = some arg)
    (hargs : createArgs v arg = .ok (n, path)) :
    (tableStep (ids d.ntasks) (v, (d.ntasks + 1 + ·), line) = some (ids (d.setup line).ntasks) ↔
        LineAgrees d.ntasks line n path) ∧
      (LineAgrees d.ntasks line n path → (d.setup line).ntasks = d.ntasks + taken d.ntasks n) := by
  have hlen : (ids d.ntasks).length = d.ntasks := by simp [ids]
  have hstep : tableStep (ids d.ntasks) (v, (d.ntasks + 1 + ·), line) = _ :=
    tableStep_create (by rw [hlen]; exact hg) harg hargs
  rw [hlen, ids_append] at hstep
  rw [hstep, setup_create harg hargs, lineAgrees_iff]
  refine ⟨?_, fun h => by rw [h.2]⟩
  by_cases hwrap : (2 ^ 31 : ℤ) ≤ d.ntasks + n
  · rw [if_pos hwrap]
    exact iff_of_false (by simp) fun h => absurd h.1 (not_lt.mpr hwrap)
  · rw [if_neg hwrap]
    have htable : (if 1 ≤ n ∧ (d.ntasks : ℤ) + n ≤ kstepShmTasks
        then some (ids (d.ntasks + n.toNat)) else some (ids d.ntasks)) =
        some (ids (d.ntasks + taken d.ntasks n)) := by
      unfold taken
      split_ifs <;> rfl
    rw [htable, Option.some.injEq, ids_inj, Nat.add_left_cancel_iff, eq_comm]
    exact ⟨fun h => ⟨not_le.mp hwrap, h⟩, fun h => h.2⟩

theorem agrees_cons (hd : d.Numbered) : Agrees world i g ((line, d) :: prog) ↔
    tableStep (ids g) (world i, (g + 1 + ·), line) = some (ids d.ntasks) ∧
      Agrees world (i + 1) d.ntasks prog :=
  ⟨fun h => ⟨h.1, h.2.2⟩, fun h => ⟨h.1, fun n hn => ids_get (hd n hn), h.2⟩⟩

/-- The setup lines, with any program after them. -/
theorem agrees_setup_iff {lines : List Line} (prog : Program) (hg : d.ntasks ≤ kstepShmTasks)
    (hd : d.Numbered) (hgrammar : SetupGrammar world i lines) :
    (Agrees world i d.ntasks (setupProgram d lines ++ prog) ↔
        SetupAgrees world i d.ntasks lines ∧
          Agrees world (i + lines.length) (lines.foldl Decoder.setup d).ntasks prog) ∧
      (SetupAgrees world i d.ntasks lines →
        (lines.foldl Decoder.setup d).ntasks = setupTotal world i d.ntasks lines ∧
          setupTotal world i d.ntasks lines ≤ kstepShmTasks) := by
  induction lines generalizing d i with
  | nil => exact ⟨by simp [setupProgram, SetupAgrees], fun _ => ⟨rfl, hg⟩⟩
  | cons line lines ih =>
      obtain ⟨hline, hrest⟩ := hgrammar
      have hindex : i + (line :: lines).length = i + 1 + lines.length := by
        rw [List.length_cons]
        omega
      rw [hindex, List.foldl_cons, setupProgram, List.cons_append, agrees_cons (hd.setup line),
        SetupAgrees, setupTotal]
      rcases harg : createArgOf line with _ | arg
      · have hsame := setup_other (d := d) harg
        have hasks : asksFor (world i) line = none := by simp [asksFor, harg]
        have hih := ih (d := d.setup line) (i := i + 1) (hsame ▸ hg) (hd.setup line) hrest
        rw [hsame] at hih ⊢
        simp only [hasks, tableStep_other harg, true_and]
        exact hih
      · obtain ⟨n, path, hargs⟩ := hline arg harg
        have hasks : asksFor (world i) line = some (n, path) := by
          simp [asksFor, harg, hargs, Except.toOption]
        obtain ⟨hiff, hcount⟩ := setup_line_iff hg harg hargs
        rw [hiff]
        simp only [hasks]
        by_cases hagrees : LineAgrees d.ntasks line n path
        · have htaken := hcount hagrees
          have hih := ih (d := d.setup line) (i := i + 1) (htaken ▸ taken_le hg) (hd.setup line)
            hrest
          rw [htaken] at hih ⊢
          simp only [hagrees, true_and]
          exact hih
        · simp only [hagrees, false_and, false_imp_iff, and_self]

end KStep.Fuzz
