import KStep.Squeeze
import KStep.CreateLine
import KStep.TaskMasks
import KStep.Replies

/-!
# How commands read the blanks between their arguments

A command that takes its arguments off with `take_arg` reads a text and the same text with one
space for every run of blanks alike. What is left to the kernel of the text is a cpulist, and what
is compared whole is a number or the name of a check.
-/

namespace KStep.Cli

open CString Trim Squeeze KStep.Topology FlatJson

/-- A text with one space for every run of blanks. -/
def spaced (s : List Char) : List Char := squeeze isBlank ' ' s

/-- `cpulist_parse` reads a run of blanks as it reads one space. -/
def SkipsBlanks (E : Env) : Prop := ∀ s, E.cpulistParse (spaced s) = E.cpulistParse s

def isCheck (name : List Char) : Bool := checks.any fun check => check.toList == name

/-- What a command hands on to the module: a cpulist as the CPUs that `kstep_parse_cpus` finds in
it, and nothing for a check that there is not. -/
def Command.handed (E : Env) (k : ℕ) : Command → Option (Command × Option (Finset ℕ))
  | .affinity p cpus => some (.affinity p none, cpus.bind (kstepParseCpus E k))
  | .cgroupCpus path cpus => some (.cgroupCpus path none, cpus.bind (kstepParseCpus E k))
  | .check name => if isCheck name then some (.check name, none) else none
  | c => some (c, none)

variable {E : Env} {v : CliView} {k : ℕ} {arg rest : Arg} {s t : List Char} {usage : String}

theorem strim_spaced (s : List Char) : strim (spaced s) = spaced (strim s) :=
  trimBy_squeeze (fun _ h => isspace_of_isBlank h) (by decide) s

theorem strim_dropWhile_isBlank (t : List Char) : strim (t.dropWhile isBlank) = strim t := by
  have h := trimBy_pos_append (p := isspace) (u := t.takeWhile isBlank) (s := t.dropWhile isBlank)
    fun c hc => isspace_of_isBlank (List.mem_takeWhile_imp hc)
  rw [List.takeWhile_append_dropWhile] at h
  exact h.symm

/-- `take_arg` takes the same token, and leaves the same text but for its runs of blanks. -/
theorem takeArg_spaced (arg : Arg) :
    takeArg (arg.map spaced) = ((takeArg arg).1, (takeArg arg).2.map spaced) := by
  rcases arg with _ | s
  · rfl
  · rcases hsep : strsep isBlank s with ⟨token, rest⟩
    have hclean := strsep_clean hsep
    rcases strsep_cases hsep with ⟨rfl, rfl⟩ | ⟨d, t, rfl, hd, rfl⟩
    · rw [Option.map_some, spaced, squeeze_of_neg hclean]
      simp only [takeArg, hsep, Option.map_none]
    · have hspaced : spaced (token ++ d :: t) = token ++ ' ' :: spaced (t.dropWhile isBlank) := by
        rw [spaced, squeeze_neg_append hclean, squeeze_cons_of_pos hd, spaced]
      have hsep' : strsep isBlank (token ++ ' ' :: spaced (t.dropWhile isBlank)) =
          (token, some (spaced (t.dropWhile isBlank))) := strsep_token_append hclean rfl
      simp only [Option.map_some, takeArg, hsep, hspaced, hsep', strim_spaced,
        strim_dropWhile_isBlank]

theorem isBlank_of_isDigit {c : Char} (h : isDigit c = true) : isBlank c = false := by
  by_contra hb
  simp only [Bool.not_eq_false, isBlank, Bool.or_eq_true, beq_iff_eq] at hb
  rcases hb with rfl | rfl
  · exact absurd h (by decide)
  · exact absurd h (by decide)

/-- A number has no blank in it. -/
theorem kstrtoint_clean {n : ℤ} (h : kstrtoint s = some n) : ∀ c ∈ s, isBlank c = false := by
  obtain ⟨-, sign, t, m, rfl, hsign, hm, -⟩ := parseInt_cases h
  obtain ⟨-, -, ht⟩ := parseDigits_cases hm
  have hdigits : ∀ c ∈ t.takeWhile isDigit, isBlank c = false := fun c hc =>
    isBlank_of_isDigit (List.mem_takeWhile_imp hc)
  intro c hc
  rcases List.mem_append.mp hc with hc | hc
  · rcases hsign with rfl | rfl | rfl
    · cases hc
    · rw [List.mem_singleton.mp hc]
      rfl
    · rw [List.mem_singleton.mp hc]
      rfl
  · rcases ht with ht | ht
    · rw [ht] at hc
      exact hdigits c hc
    · rw [ht] at hc
      rcases List.mem_append.mp hc with hc | hc
      · exact hdigits c hc
      · rw [List.mem_singleton.mp hc]
        rfl

theorem kstrtoint_spaced (s : List Char) : kstrtoint (spaced s) = kstrtoint s := by
  ext n
  exact squeeze_iff_of_clean (P := fun s => kstrtoint s = some n) rfl fun s h => kstrtoint_clean h

theorem rangeArg_spaced (lo hi : ℤ) (usage : String) (s : List Char) :
    rangeArg lo hi usage (spaced s) = rangeArg lo hi usage s := by
  rw [rangeArg, rangeArg, kstrtoint_spaced]

def spacedRest {α : Type} (r : α × Arg) : α × Arg := (r.1, r.2.map spaced)

theorem parseTask_spaced (v : CliView) (arg : Arg) (usage : String) :
    parseTask v (arg.map spaced) usage = (parseTask v arg usage).map spacedRest := by
  simp only [parseTask, takeArg_spaced]
  rcases takeArg arg with ⟨_ | num, rest⟩
  · rfl
  · dsimp only
    split
    · rfl
    · split_ifs <;> rfl

theorem parseCgroup_spaced (v : CliView) (arg : Arg) (usage : String) (create : Bool) :
    parseCgroup v (arg.map spaced) usage create =
      (parseCgroup v arg usage create).map spacedRest := by
  simp only [parseCgroup, takeArg_spaced]
  rcases takeArg arg with ⟨token, rest⟩
  dsimp only
  split
  · rename_i h
    cases h
    simp only
    split_ifs <;> rfl
  · rename_i h
    split
    · rename_i name rest' heq
      cases heq
      exact absurd rfl (h name _)
    · rfl

theorem head?_spaced : (spaced s).head? = some '/' ↔ s.head? = some '/' := by
  rw [spaced, head?_squeeze]
  rcases s with _ | ⟨c, s⟩
  · rfl
  · simp only [List.head?_cons, Option.map_some, Option.some.injEq]
    split_ifs with hc
    · constructor
      · intro h
        exact absurd h (by decide)
      · rintro rfl
        exact absurd hc (by decide)
    · rfl

theorem spaced_eq_nil_iff : spaced s = [] ↔ s = [] := squeeze_eq_nil_iff

theorem createCount_spaced (arg : Arg) :
    createCount (arg.map spaced) = (createCount arg).map spacedRest := by
  rcases arg with _ | s
  · rfl
  · simp only [Option.map_some, createCount, head?_spaced]
    split_ifs
    · rfl
    · have htake := takeArg_spaced (some s)
      rw [Option.map_some] at htake
      rw [htake]
      dsimp only
      split <;> rfl

theorem createPath_spaced (v : CliView) (arg : Arg) :
    createPath v (arg.map spaced) = createPath v arg := by
  rcases arg with _ | _ | ⟨c, s⟩
  · rfl
  · rfl
  · have hparse := parseCgroup_spaced v (some (c :: s)) createUsage false
    obtain ⟨c', s', hs⟩ := List.exists_cons_of_ne_nil
      (mt spaced_eq_nil_iff.mp (List.cons_ne_nil c s))
    rw [Option.map_some, hs] at hparse
    simp only [Option.map_some, hs, createPath, hparse]
    rcases parseCgroup v (some (c :: s)) createUsage false with msg | ⟨name, _ | rest⟩
    · rfl
    · rfl
    · rfl

theorem createRequest_spaced (v : CliView) (arg : Arg) :
    createRequest v (arg.map spaced) = createRequest v arg := by
  rw [createRequest, createRequest, createArgs, createArgs, createCount_spaced]
  rcases createCount arg with msg | ⟨n, rest⟩
  · rfl
  · simp only [Except.map, spacedRest, bind, Except.bind, createPath_spaced]

theorem parseCpus_spaced (hE : SkipsBlanks E) (k : ℕ) (rest : Arg) :
    (rest.map spaced).bind (kstepParseCpus E k) = rest.bind (kstepParseCpus E k) := by
  rcases rest with _ | s
  · rfl
  · simp only [Option.map_some, Option.bind_some, kstepParseCpus, hE s]

section Commands

variable (hE : SkipsBlanks E)

def isClean (s : List Char) : Bool := s.all fun c => !isBlank c

theorem isClean_iff : isClean s = true ↔ ∀ c ∈ s, isBlank c = false := by
  simp [isClean]

theorem isCheck_iff {name : List Char} :
    isCheck name = true ↔ name ∈ checks.map String.toList := by
  simp [isCheck]

theorem isCheck_clean {name : List Char} (h : isCheck name = true) :
    ∀ c ∈ name, isBlank c = false := by
  have hall : (checks.map String.toList).all isClean = true := by decide
  exact isClean_iff.mp (List.all_eq_true.mp hall name (isCheck_iff.mp h))

theorem handed_check (name : List Char) :
    (Command.check (spaced name)).handed E k = (Command.check name).handed E k := by
  have hiff : isCheck (spaced name) = true ↔ isCheck name = true :=
    squeeze_iff_of_clean (P := (isCheck · = true)) rfl fun s h => isCheck_clean h
  by_cases hname : isCheck name = true
  · rw [spaced, squeeze_of_neg (isCheck_clean hname)]
  · rw [Command.handed, Command.handed, if_neg hname, if_neg (mt hiff.mp hname)]

theorem cmdTick_spaced (arg : Arg) : cmdTick (arg.map spaced) = cmdTick arg := by
  rcases arg with _ | s
  · rfl
  · simp only [Option.map_some, cmdTick, rangeArg_spaced]

theorem cmdPolicyFair_spaced (v : CliView) (arg : Arg) :
    cmdPolicyFair v (arg.map spaced) = cmdPolicyFair v arg := by
  rw [cmdPolicyFair, cmdPolicyFair, parseTask_spaced]
  rcases parseTask v arg _ with msg | ⟨p, rest⟩
  · rfl
  · simp only [Except.map, spacedRest, bind, Except.bind, takeArg_spaced]
    rcases takeArg rest with ⟨name, _ | s⟩
    · rfl
    · simp only [Option.map_some, rangeArg_spaced]

theorem cmdPolicyRt_spaced (v : CliView) (arg : Arg) :
    cmdPolicyRt v (arg.map spaced) = cmdPolicyRt v arg := by
  rw [cmdPolicyRt, cmdPolicyRt, parseTask_spaced]
  rcases parseTask v arg _ with msg | ⟨p, rest⟩
  · rfl
  · simp only [Except.map, spacedRest, bind, Except.bind, takeArg_spaced]
    rcases takeArg rest with ⟨name, _ | s⟩
    · rfl
    · simp only [Option.map_some, rangeArg_spaced]

theorem cmdCgroupCreate_spaced (v : CliView) (arg : Arg) :
    cmdCgroupCreate v (arg.map spaced) = cmdCgroupCreate v arg := by
  rw [cmdCgroupCreate, cmdCgroupCreate, parseCgroup_spaced]
  rcases parseCgroup v arg _ true with msg | ⟨name, rest⟩ <;> rfl

theorem cmdCgroupDestroy_spaced (v : CliView) (arg : Arg) :
    cmdCgroupDestroy v (arg.map spaced) = cmdCgroupDestroy v arg := by
  rw [cmdCgroupDestroy, cmdCgroupDestroy, parseCgroup_spaced]
  rcases parseCgroup v arg _ false with msg | ⟨name, rest⟩ <;> rfl

theorem cmdCgroupWeight_spaced (v : CliView) (arg : Arg) :
    cmdCgroupWeight v (arg.map spaced) = cmdCgroupWeight v arg := by
  rw [cmdCgroupWeight, cmdCgroupWeight, parseCgroup_spaced]
  rcases parseCgroup v arg _ false with msg | ⟨name, _ | s⟩
  · rfl
  · rfl
  · simp only [Except.map, spacedRest, bind, Except.bind, Option.map_some, rangeArg_spaced]

theorem cmdCgroupAttach_spaced (v : CliView) (arg : Arg) :
    cmdCgroupAttach v (arg.map spaced) = cmdCgroupAttach v arg := by
  rw [cmdCgroupAttach, cmdCgroupAttach, parseCgroup_spaced]
  rcases parseCgroup v arg _ false with msg | ⟨name, rest⟩
  · rfl
  · simp only [Except.map, spacedRest, bind, Except.bind, parseTask_spaced]
    rcases parseTask v rest _ with msg | ⟨p, rest⟩ <;> rfl

theorem cmdCheck_spaced (arg : Arg) :
    (cmdCheck (arg.map spaced)).map (Command.handed E k) =
      (cmdCheck arg).map (Command.handed E k) := by
  rcases arg with _ | name
  · rfl
  · exact congrArg Except.ok (handed_check name)

include hE

theorem cmdAffinity_spaced (v : CliView) (arg : Arg) :
    (cmdAffinity v (arg.map spaced)).map (Command.handed E k) =
      (cmdAffinity v arg).map (Command.handed E k) := by
  rw [cmdAffinity, cmdAffinity, parseTask_spaced]
  rcases parseTask v arg _ with msg | ⟨p, rest⟩
  · rfl
  · simp only [Except.map, spacedRest, bind, Except.bind, pure, Except.pure, Command.handed,
      parseCpus_spaced hE]

theorem cmdCgroupCpus_spaced
    (hv : ∀ list, v.validCpus list = (list.bind (kstepParseCpus E v.testNcpus)).isSome)
    (arg : Arg) :
    (cmdCgroupCpus v (arg.map spaced)).map (Command.handed E k) =
      (cmdCgroupCpus v arg).map (Command.handed E k) := by
  rw [cmdCgroupCpus, cmdCgroupCpus, parseCgroup_spaced]
  rcases parseCgroup v arg _ false with msg | ⟨name, rest⟩
  · rfl
  · simp only [Except.map, spacedRest, bind, Except.bind, hv, parseCpus_spaced hE]
    by_cases hvalid : (rest.bind (kstepParseCpus E v.testNcpus)).isSome = true
    · simp only [if_pos hvalid, pure, Except.pure, Command.handed, parseCpus_spaced hE]
    · simp only [if_neg hvalid]

end Commands

end KStep.Cli
