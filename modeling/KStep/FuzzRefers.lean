import KStep.FuzzCommand

/-!
# What a fuzzed line may refer to

The host resolves the arguments of a record against what its earlier lines have made. Along a whole
program, the tasks it may name are those that the create lines so far have introduced and that no
fuzzed line has killed, and the cgroups are those of the cgroup-create lines so far.
-/

namespace KStep.Fuzz

open CString Trim Cli

def created (line : Line) : ℕ :=
  if SpacedCreate line then ((parseI32 (trim (splitOnce line).2)).getD 1).toNat else 0

/-- A task that the lines so far have introduced and that none of the fuzzed ones has killed. -/
def LiveTask (before fuzzed : List Line) (t : ℕ) : Prop :=
  1 ≤ t ∧ t ≤ (before.map created).sum ∧ (Command.kill t).line ∉ fuzzed

def MadeCgroup (before : List Line) (path : Line) : Prop :=
  ∃ line ∈ before, splitOnce line = ("cgroup-create".toList, path)

structure Tracks (before fuzzed : List Line) (d : Decoder) : Prop where
  count : d.ntasks = (before.map created).sum
  numbered : d.Numbered
  killed : ∀ t, (Command.kill t).line ∈ fuzzed → t ≤ d.ntasks ∧ t ∉ d.alive
  cgroups : ∀ path ∈ d.cgroups, MadeCgroup before path

variable {bug : Bug} {d : Decoder} {r : Record} {c : Command} {line verb : Line} {t : ℕ}
  {before fuzzed : List Line} {task : ℕ → Prop} {cgroup : Line → Prop}

theorem splitOnce_say (h : ∀ ch ∈ verb, (ch == ' ') = false) (args : List (List Char)) :
    splitOnce (say verb args) = (verb, (args.flatMap fun arg => ' ' :: arg).tail) := by
  rw [say, splitOnce]
  rcases say_tail args with htail | ⟨u, htail⟩
  · rw [htail, List.append_nil, strsep_token h]
    rfl
  · rw [htail, strsep_token_append h rfl]
    rfl

theorem mem_arms (h : armOf verb ≠ .other) : (verb, armOf verb) ∈ arms := by
  rcases hlookup : arms.lookup verb with _ | arm
  · exact absurd (by rw [armOf, hlookup]; rfl) h
  · obtain ⟨l, l', harms, -⟩ := List.lookup_eq_some_iff.mp hlookup
    rw [armOf, hlookup, harms]
    simp

theorem armOf_verb (hc : c.Allowed bug task cgroup) : armOf c.verb = c.arm := by
  cases c with
  | taskVerb verb t =>
      have harm := (List.mem_filter.mp hc.1).2
      exact beq_iff_eq.mp harm
  | _ => rfl

theorem verb_eq_of_armOf {v w : Line} (h : armOf v = armOf w) (hne : armOf v ≠ .other) : v = w := by
  have harms : ∀ e ∈ arms, ∀ e' ∈ arms, e.2 = e'.2 → e.1 = e'.1 := by decide
  exact harms _ (mem_arms hne) _ (mem_arms (h ▸ hne)) h

theorem armOf_verb_of_arm (h : c.arm ≠ .other) : armOf c.verb = c.arm := by
  cases c with
  | taskVerb verb t => exact absurd rfl h
  | _ => rfl

/-- The verb of a record's line is the one its byte picks, or that of a tick in its place. -/
theorem command_verb (bug : Bug) (d : Decoder) (r : Record) :
    (bug.command d r).verb = bug.verbAt r ∨ bug.command d r = .tick := by
  rcases command_arm bug d r with harm | htick
  · by_cases hother : armOf (bug.verbAt r) = .other
    · unfold Bug.command
      split_ifs
      · exact Or.inr rfl
      · rw [hother]
        exact Or.inl rfl
    · rw [← harm] at hother
      have hverb := armOf_verb_of_arm hother
      exact Or.inl (verb_eq_of_armOf (hverb.trans harm) (hverb ▸ hother))
  · exact Or.inr htick

theorem verb_mem (hc : c.Allowed bug task cgroup) :
    (c.verb, armOf c.verb) ∈ arms ∨ c.verb ∈ oneTaskVerbs := by
  by_cases harm : armOf c.verb = .other
  · rw [armOf_verb hc] at harm
    cases c with
    | taskVerb verb t => exact Or.inr hc.1
    | _ => cases harm
  · exact Or.inl (mem_arms harm)

theorem verb_clean (hc : c.Allowed bug task cgroup) : ∀ ch ∈ c.verb, (ch == ' ') = false := by
  have harms : (arms.all fun e => e.1.all fun ch => !(ch == ' ')) = true := by decide
  have hverbs : (oneTaskVerbs.all fun verb => verb.all fun ch => !(ch == ' ')) = true := by decide
  intro ch hch
  rcases verb_mem hc with hmem | hmem
  · have hclean := List.all_eq_true.mp (List.all_eq_true.mp harms _ hmem) ch hch
    rwa [Bool.not_eq_true'] at hclean
  · have hclean := List.all_eq_true.mp (List.all_eq_true.mp hverbs _ hmem) ch hch
    rwa [Bool.not_eq_true'] at hclean

theorem splitOnce_line (hc : c.Allowed bug task cgroup) :
    splitOnce c.line = (c.verb, (c.args.flatMap fun arg => ' ' :: arg).tail) :=
  splitOnce_say (verb_clean hc) c.args

theorem dec_injective : Function.Injective dec := by
  intro m n h
  have hvalue (n : ℕ) : Nat.ofDigitChars 10 (dec n) 0 = n := by
    have hdigits : dec n = Nat.toDigits 10 n := String.toList_ofList
    rw [hdigits, Nat.ofDigitChars_ten_toDigits]
  rw [← hvalue m, h, hvalue n]

theorem dec_digits {n : ℕ} {ch : Char} (h : ch ∈ dec n) : ch.isDigit = true := by
  have hdigits : dec n = Nat.toDigits 10 n := String.toList_ofList
  exact Nat.isDigit_of_mem_toDigits (by decide) (by decide) (hdigits ▸ h)

theorem dec_ne {n : ℕ} {ch sep : Char} (hsep : sep.isDigit = false) (h : ch ∈ dec n) :
    (ch == sep) = false := by
  rw [beq_eq_false_iff_ne]
  rintro rfl
  exact absurd ((dec_digits h).symm.trans hsep) (by simp)

theorem arm_eq_create : c.arm = .create ↔ c = .create := by
  cases c <;> simp [Command.arm]

theorem created_line (hc : c.Allowed bug task cgroup) :
    created c.line = if c = .create then 1 else 0 := by
  have hspaced : SpacedCreate c.line ↔ c = .create := by
    rw [SpacedCreate, splitOnce_line hc, ← armOf_create, armOf_verb hc, arm_eq_create]
  by_cases hcreate : c = .create
  · rw [hcreate, if_pos rfl]
    decide
  · rw [created, if_neg (mt hspaced.mp hcreate), if_neg hcreate]

/-- A line is that of a kill only if its command is that kill. -/
theorem line_eq_kill (hc : c.Allowed bug task cgroup) :
    (Command.kill t).line = c.line ↔ c = .kill t := by
  refine ⟨fun h => ?_, fun h => by rw [h]⟩
  have hkill : (Command.kill t).Allowed bug (fun _ => True) cgroup := trivial
  have hsplit := (splitOnce_line hkill).symm.trans
    ((congrArg splitOnce h).trans (splitOnce_line hc))
  obtain ⟨hverb, hargs⟩ := Prod.mk.injEq _ _ _ _ ▸ hsplit
  have harm : c.arm = .kill := (armOf_verb hc).symm.trans (congrArg armOf hverb).symm
  cases c with
  | kill t' =>
      have hdec : dec t = dec t' := by simpa [Command.args] using hargs
      rw [dec_injective hdec]
  | _ => cases harm

theorem after_ntasks (hc : c.Allowed bug task cgroup) :
    (d.after c).ntasks = d.ntasks + created c.line := by
  rw [created_line hc]
  cases c <;> rfl

/-- A command removes the task it kills and adds the one it creates. -/
theorem mem_after_alive : t ∈ (d.after c).alive ↔
    t ∈ d.alive ∧ c ≠ .kill t ∨ c = .create ∧ t = d.ntasks + 1 := by
  cases c with
  | create => simp [Decoder.after, Decoder.addTasks]
  | kill t' =>
      simp only [Decoder.after, List.mem_filter, decide_eq_true_eq, ne_eq, Command.kill.injEq,
        reduceCtorEq, false_and, or_false]
      exact and_congr_right fun _ => not_congr eq_comm
  | _ => simp [Decoder.after]

theorem mem_after_cgroups (hc : c.Allowed bug task cgroup) {path : Line}
    (h : path ∈ (d.after c).cgroups) :
    path ∈ d.cgroups ∨ splitOnce c.line = ("cgroup-create".toList, path) := by
  cases c with
  | cgroupCreate parent n =>
      have h : path ∈ d.cgroups ++ [cgroupPath parent n] := h
      rcases List.mem_append.mp h with h | h
      · exact Or.inl h
      · have hargs : ((Command.cgroupCreate parent n).args.flatMap fun arg => ' ' :: arg).tail =
            cgroupPath parent n := List.append_nil _
        rw [List.mem_singleton.mp h, splitOnce_line hc, hargs]
        exact Or.inr rfl
  | _ => exact Or.inl h

theorem Tracks.command (h : Tracks before fuzzed d)
    (hc : c.Allowed bug (· ∈ d.alive) (· ∈ d.cgroups)) :
    Tracks (before ++ [c.line]) (fuzzed ++ [c.line]) (d.after c) where
  count := by
    rw [after_ntasks hc, h.count, List.map_append, List.sum_append]
    simp
  numbered := by
    intro n hn
    have hle : d.ntasks ≤ (d.after c).ntasks := by
      rw [after_ntasks hc]
      exact Nat.le_add_right _ _
    rcases mem_after_alive.mp hn with ⟨hmem, -⟩ | ⟨hcreate, rfl⟩
    · have := h.numbered n hmem
      omega
    · rw [after_ntasks hc, created_line hc, if_pos hcreate]
      omega
  killed := by
    intro t ht
    have hold : t ≤ d.ntasks ∧ (t ∈ d.alive → c = .kill t) := by
      rcases List.mem_append.mp ht with ht | ht
      · exact ⟨(h.killed t ht).1, fun hmem => absurd hmem (h.killed t ht).2⟩
      · have hkill := (line_eq_kill hc).mp (List.mem_singleton.mp ht)
        subst hkill
        exact ⟨(h.numbered t hc).2, fun _ => rfl⟩
    rw [after_ntasks hc, mem_after_alive]
    refine ⟨by omega, ?_⟩
    rintro (⟨hmem, hne⟩ | ⟨-, rfl⟩)
    · exact hne (hold.2 hmem)
    · omega
  cgroups := by
    intro path hpath
    rcases mem_after_cgroups hc hpath with hpath | hpath
    · obtain ⟨line, hline, hsplit⟩ := h.cgroups path hpath
      exact ⟨line, List.mem_append_left _ hline, hsplit⟩
    · exact ⟨c.line, by simp, hpath⟩

theorem Tracks.setup (h : Tracks before [] d) (line : Line) :
    Tracks (before ++ [line]) [] (d.setup line) where
  count := by
    rw [setup_ntasks, h.count, List.map_append, List.sum_append]
    simp [created]
  numbered := h.numbered.setup line
  killed := fun t ht => by cases ht
  cgroups := by
    intro path hpath
    have hold : path ∈ d.cgroups → MadeCgroup (before ++ [line]) path := by
      intro hmem
      obtain ⟨l, hl, hsplit⟩ := h.cgroups path hmem
      exact ⟨l, List.mem_append_left _ hl, hsplit⟩
    unfold Decoder.setup at hpath
    simp only at hpath
    split_ifs at hpath with hcreate hcgroup
    · exact hold hpath
    · rcases List.mem_append.mp hpath with hpath | hpath
      · exact hold hpath
      · refine ⟨line, by simp, ?_⟩
        rw [List.mem_singleton.mp hpath, ← hcgroup]
    · exact hold hpath

theorem Tracks.setup_lines (h : Tracks before [] d) (lines : List Line) :
    Tracks (before ++ lines) [] (lines.foldl Decoder.setup d) := by
  induction lines generalizing before d with
  | nil => simpa using h
  | cons line lines ih => simpa using ih (h.setup line)

theorem Tracks.live_task (h : Tracks before fuzzed d) (ht : t ∈ d.alive) :
    LiveTask before fuzzed t :=
  ⟨(h.numbered t ht).1, h.count ▸ (h.numbered t ht).2, fun hkill => (h.killed t hkill).2 ht⟩

theorem Tracks.allowed (h : Tracks before fuzzed d)
    (hc : c.Allowed bug (· ∈ d.alive) (· ∈ d.cgroups)) :
    c.Allowed bug (LiveTask before fuzzed) (MadeCgroup before) :=
  hc.mono (fun _ => h.live_task) h.cgroups

def lines (bytes : List UInt8) (bug : Bug) : List Line := (decode bytes bug).map Prod.fst

theorem setupProgram_lines (d : Decoder) (lines : List Line) :
    (setupProgram d lines).map Prod.fst = lines := by
  induction lines generalizing d with
  | nil => rfl
  | cons line lines ih => rw [setupProgram, List.map_cons, ih]

theorem lines_eq (bytes : List UInt8) (bug : Bug) : lines bytes bug =
    (bug.checks.map (fun c => say "check".toList [c]) ++ bug.setup) ++
      ((recordProgram bug (bug.setup.foldl Decoder.setup Decoder.start)
          ((chunks bytes).take maxRecords)).map Prod.fst ++
        List.replicate 3 Command.tick.line) := by
  have hchecks : (bug.checks.map fun c => (say "check".toList [c], Decoder.start)).map Prod.fst =
      bug.checks.map fun c => say "check".toList [c] := List.map_map
  simp only [lines, decode, List.map_append, hchecks, setupProgram_lines, List.map_replicate,
    List.append_assoc]
  rfl

theorem Tracks.checks (checks : List Line) :
    Tracks (checks.map fun c => say "check".toList [c]) [] Decoder.start where
  count := by
    have hnone : ∀ n ∈ (checks.map fun c => say "check".toList [c]).map created, n = 0 := by
      intro n hn
      obtain ⟨line, hline, rfl⟩ := List.mem_map.mp hn
      obtain ⟨c, -, rfl⟩ := List.mem_map.mp hline
      have hclean : ("check".toList.all fun ch => !(ch == ' ')) = true := by decide
      have hsplit : splitOnce (say "check".toList [c]) = ("check".toList, _) :=
        splitOnce_say (fun ch hch => by simpa using List.all_eq_true.mp hclean ch hch) [c]
      have hspaced : ¬ SpacedCreate (say "check".toList [c]) := by
        rw [SpacedCreate, hsplit]
        exact show "check".toList ≠ "create".toList by decide
      exact if_neg hspaced
    exact (List.sum_eq_zero_iff_forall_eq_nat.mpr hnone).symm
  numbered := Decoder.start_numbered
  killed := fun t ht => by cases ht
  cgroups := fun path hpath => by cases hpath

/-- Each line of the records refers to what the lines before it have made. -/
theorem records_refer {rs : List Record} {k : ℕ} {pre post : List Line} (hcpus : 2 ≤ bug.numCpus)
    (hverbs : bug.KnownVerbs) (h : Tracks before fuzzed d)
    (hsplit : (recordProgram bug d rs).map Prod.fst ++ List.replicate k Command.tick.line =
      pre ++ line :: post) :
    ∃ c : Command, line = c.line ∧
      c.Allowed bug (LiveTask (before ++ pre) (fuzzed ++ pre)) (MadeCgroup (before ++ pre)) := by
  induction rs generalizing before fuzzed d pre with
  | nil =>
      have hline : line ∈ List.replicate k Command.tick.line := by
        rw [recordProgram, List.map_nil, List.nil_append] at hsplit
        rw [hsplit]
        simp
      exact ⟨.tick, (List.mem_replicate.mp hline).2, trivial⟩
  | cons r rs ih =>
      have hc := command_allowed hcpus hverbs d r
      rw [recordProgram, record_eq, List.map_cons, List.cons_append] at hsplit
      rcases List.cons_eq_append_iff.mp hsplit with ⟨rfl, hline⟩ | ⟨pre', rfl, hrest⟩
      · cases hline
        simp only [List.append_nil]
        exact ⟨bug.command d r, rfl, h.allowed hc⟩
      · obtain ⟨c, hline, hallowed⟩ := ih (h.command hc) hrest
        refine ⟨c, hline, ?_⟩
        simpa only [List.append_assoc, List.singleton_append] using hallowed

/-- Every fuzzed line is a command in range whose tasks have been created and not killed and whose
cgroups have been created, by the lines before it. -/
theorem lines_refer {post : List Line} {bytes : List UInt8} (hcpus : 2 ≤ bug.numCpus)
    (hverbs : bug.KnownVerbs) (hsplit : lines bytes bug = before ++ line :: post)
    (hfuzzed : bug.checks.length + bug.setup.length ≤ before.length) :
    ∃ c : Command, line = c.line ∧ c.Allowed bug
      (LiveTask before (before.drop (bug.checks.length + bug.setup.length)))
      (MadeCgroup before) := by
  have htracks := (Tracks.checks bug.checks).setup_lines bug.setup
  rw [lines_eq] at hsplit
  have hlen : (bug.checks.map (fun c => say "check".toList [c]) ++ bug.setup).length =
      bug.checks.length + bug.setup.length := by
    rw [List.length_append, List.length_map]
  generalize bug.checks.map (fun c => say "check".toList [c]) ++ bug.setup = head at *
  obtain ⟨pre, rfl⟩ : ∃ pre, before = head ++ pre := by
    have hprefix : head <+: before ++ line :: post := ⟨_, hsplit⟩
    obtain ⟨pre, hpre⟩ := List.prefix_of_prefix_length_le hprefix (List.prefix_append _ _)
      (hlen ▸ hfuzzed)
    exact ⟨pre, hpre.symm⟩
  rw [List.append_assoc, List.append_cancel_left_eq] at hsplit
  rw [← hlen, List.drop_left]
  exact records_refer hcpus hverbs htracks hsplit

end KStep.Fuzz
