import KStep.CString
import KStep.Machine

/-!
# The command line

`execute` takes a line apart as `cli.c` does and answers with the command it asks for, or with the
error text of the reply. What the parsers look up on the way, the session's tasks, the cgroups that
exist and the CPU lists that are valid, is the `CliView`.
-/

namespace KStep.Cli

open CString

/-- A 32-bit `int` sum as the kernel compiles it. -/
def wrap32 (x : ℤ) : ℤ := Int.bmod x (2 ^ 32)

/-- What the parsers read of the session and the machine; a task's index is its number less one. -/
structure CliView where
  ntasks : ℕ
  exited : ℕ → Bool
  cgroupExists : List Char → Bool
  testNcpus : ℕ
  /-- `kstep_parse_cpus` -/
  validCpus : Option (List Char) → Bool

def plainView : CliView := ⟨0, fun _ => false, fun _ => false, 2, fun _ => true⟩

inductive FairPolicy
  | normal | batch | idle
  deriving DecidableEq, Repr

inductive RtPolicy
  | fifo | rr
  deriving DecidableEq, Repr

/-- The verbs of `task_verbs`: an action queued for the task, a wakeup, or the freezer's. -/
inductive TaskVerb
  | ctrl (act : Ctrl)
  | wake
  | freeze
  | thaw
  deriving DecidableEq, Repr

inductive Command
  | create (n : ℤ) (path : Option (List Char))
  | tick (n : ℤ)
  | cpuTopo (spec : List Char)
  | cpuFreq (cpu scale : ℤ)
  | policyFair (p : ℕ) (policy : FairPolicy) (nice : Option ℤ)
  | policyRt (p : ℕ) (policy : RtPolicy) (prio : ℤ)
  | affinity (p : ℕ) (cpus : Option (List Char))
  | cgroupCreate (path : List Char)
  | cgroupWeight (path : List Char) (weight : ℤ)
  | cgroupCpus (path : List Char) (cpus : Option (List Char))
  | cgroupDestroy (path : List Char)
  | cgroupAttach (path : List Char) (p : ℕ)
  | check (name : List Char)
  | task (verb : TaskVerb) (p : ℕ)
  | exit
  deriving DecidableEq, Repr

def isBlank (c : Char) : Bool := c == ' ' || c == '\t'

abbrev Arg := Option (List Char)

/-- `take_arg`: one argument off the cursor, and the cursor after it. -/
def takeArg : Arg → Arg × Arg
  | none => (none, none)
  | some s => match strsep isBlank s with
    | (token, rest) => (some token, rest.map strim)

variable (v : CliView)

/-- `parse_task`: the task's index and the rest. -/
def parseTask (arg : Arg) (usage : String) : Except String (ℕ × Arg) :=
  match takeArg arg with
  | (none, _) => throw usage
  | (some num, rest) => match kstrtoint num with
    | none => throw usage
    | some n =>
        if n ≤ 0 then throw usage
        else if (v.ntasks : ℤ) < n ∨ v.exited (n.toNat - 1) then throw "no such task"
        else pure (n.toNat - 1, rest)

/-- `parse_cgroup`: the path without its slash and the rest. -/
def parseCgroup (arg : Arg) (usage : String) (create : Bool) : Except String (List Char × Arg) :=
  match takeArg arg with
  | (some ('/' :: name), rest) =>
      if strstr ('/' :: name) "..".toList || 48 ≤ name.length + 1 then throw usage
      else if create then
        if name = [] ∨ v.cgroupExists name then throw "cgroup exists" else pure (name, rest)
      else if name ≠ [] ∧ !v.cgroupExists name then throw "no such cgroup" else pure (name, rest)
  | _ => throw usage

def rangeArg (lo hi : ℤ) (usage : String) (s : List Char) : Except String ℤ :=
  match kstrtoint s with
  | some n => if n < lo ∨ hi < n then throw usage else pure n
  | none => throw usage

def cmdTick (arg : Arg) : Except String Command :=
  match arg with
  | none => pure (.tick 1)
  | some s => (rangeArg 1 10000 "usage: tick [1..10000]" s).map .tick

def cmdAffinity (arg : Arg) : Except String Command := do
  let (p, rest) ← parseTask v arg "usage: affinity <n> <cpulist within 1..CPUS>"
  pure (.affinity p rest)

def fairPolicies : List (String × FairPolicy) :=
  [("normal", .normal), ("batch", .batch), ("idle", .idle)]

def rtPolicies : List (String × RtPolicy) := [("fifo", .fifo), ("rr", .rr)]

def lookup {α : Type} (table : List (String × α)) (name : List Char) : Option α :=
  (table.find? fun e => e.1.toList == name).map Prod.snd

def cmdPolicyFair (arg : Arg) : Except String Command := do
  let usage := "usage: policy-fair <n> <normal|batch|idle> [-20..19]"
  let (p, rest) ← parseTask v arg usage
  let (name, rest) := takeArg rest
  let nice ← match rest with
    | none => pure none
    | some s => (rangeArg (-20) 19 usage s).map some
  match name.bind (lookup fairPolicies) with
  | some policy => pure (.policyFair p policy nice)
  | none => throw usage

def cmdPolicyRt (arg : Arg) : Except String Command := do
  let usage := "usage: policy-rt <n> <fifo|rr> <1..99>"
  let (p, rest) ← parseTask v arg usage
  let (name, rest) := takeArg rest
  let prio ← match rest with
    | none => throw usage
    | some s => rangeArg 1 99 usage s
  match name.bind (lookup rtPolicies) with
  | some policy => pure (.policyRt p policy prio)
  | none => throw usage

def createUsage : String := "usage: create [n] [/path]"

def createCount : Arg → Except String (ℤ × Arg)
  | none => pure (1, none)
  | some s =>
      if s.head? = some '/' then pure (1, some s)
      else match takeArg (some s) with
        | (num, rest) => match num.bind kstrtoint with
          | some n => pure (n, rest)
          | none => throw createUsage

def createPath : Arg → Except String Arg
  | none => pure none
  | some [] => pure none
  | some s => match parseCgroup v (some s) createUsage false with
    | .error msg => throw msg
    | .ok (name, none) => pure (some name)
    | .ok (_, some _) => throw createUsage

def createArgs (arg : Arg) : Except String (ℤ × Arg) := do
  let (n, rest) ← createCount arg
  let path ← createPath v rest
  pure (n, path)

/-- What `cmd_create` goes on to do: the arguments, once the count has passed its guard. -/
def createRequest (arg : Arg) : Except String (ℤ × Arg) := do
  let (n, path) ← createArgs v arg
  if n < 1 ∨ (kstepShmTasks : ℤ) < wrap32 (v.ntasks + n) then throw "too many tasks"
  else pure (n, path)

def cmdCreate (arg : Arg) : Except String Command :=
  (createRequest v arg).map fun request => .create request.1 request.2

def cmdCgroupCreate (arg : Arg) : Except String Command := do
  let (name, _) ← parseCgroup v arg "usage: cgroup-create /path" true
  pure (.cgroupCreate name)

def cmdCgroupWeight (arg : Arg) : Except String Command := do
  let usage := "usage: cgroup-weight /path <1..10000>"
  let (name, rest) ← parseCgroup v arg usage false
  match rest with
  | none => throw usage
  | some s => (rangeArg 1 10000 usage s).map (.cgroupWeight name)

def cmdCgroupCpus (arg : Arg) : Except String Command := do
  let usage := "usage: cgroup-cpus /path <cpulist within 1..CPUS>"
  let (name, rest) ← parseCgroup v arg usage false
  if v.validCpus rest then pure (.cgroupCpus name rest) else throw usage

def cmdCgroupDestroy (arg : Arg) : Except String Command := do
  let (name, _) ← parseCgroup v arg "usage: cgroup-destroy /path" false
  if name = [] then throw "cannot destroy the root cgroup" else pure (.cgroupDestroy name)

def cmdCgroupAttach (arg : Arg) : Except String Command := do
  let usage := "usage: cgroup-attach /path <n>"
  let (name, rest) ← parseCgroup v arg usage false
  let (p, _) ← parseTask v rest usage
  pure (.cgroupAttach name p)

def cmdCheck (arg : Arg) : Except String Command :=
  match arg with
  | none => throw "usage: check <name>"
  | some name => pure (.check name)

def cmdCpuFreq (arg : Arg) : Except String Command :=
  let usage := "usage: cpu-freq <cpu> <1..1024>"
  match arg.bind (strchr ' ') with
  | none => throw usage
  | some (cpu, scale) => do
      let cpu ← rangeArg 1 v.testNcpus usage cpu
      let scale ← rangeArg 1 1024 usage scale
      pure (.cpuFreq cpu scale)

def cmdCpuTopo (arg : Arg) : Except String Command :=
  match arg with
  | none => throw "usage: cpu-topo KEY=group|group[;...] (levels, CAP and CPUS=K, see cpu.c)"
  | some spec => pure (.cpuTopo spec)

def commands : List (String × (Arg → Except String Command)) :=
  [("create", cmdCreate v), ("tick", cmdTick), ("cpu-topo", cmdCpuTopo),
    ("cpu-freq", cmdCpuFreq v), ("policy-fair", cmdPolicyFair v), ("policy-rt", cmdPolicyRt v),
    ("affinity", cmdAffinity v), ("cgroup-create", cmdCgroupCreate v),
    ("cgroup-weight", cmdCgroupWeight v), ("cgroup-cpus", cmdCgroupCpus v),
    ("cgroup-destroy", cmdCgroupDestroy v), ("cgroup-attach", cmdCgroupAttach v),
    ("check", cmdCheck)]

def taskVerbs : List (String × TaskVerb) :=
  [("pause", .ctrl .pause), ("block", .ctrl .block), ("wake", .wake), ("kill", .ctrl .exit),
    ("chan-read", .ctrl .chanRead), ("chan-write", .ctrl .chanWrite), ("freeze", .freeze),
    ("thaw", .thaw), ("yield", .ctrl .yield)]

/-- The argument of a command: what follows the verb, when it is not blank. -/
def lineArg (rest : Option (List Char)) : Arg :=
  match rest.map strim with
  | some [] => none
  | arg => arg

def execute (line : List Char) : Except String Command :=
  match strsep isBlank line with
  | (verb, rest) =>
    match lookup (commands v) verb, lookup taskVerbs verb with
    | some cmd, _ => cmd (lineArg rest)
    | none, some act => do
        let (p, _) ← parseTask v (lineArg rest)
          (String.ofList (strscpy 32 ("usage: ".toList ++ verb ++ " <n>".toList)))
        pure (.task act p)
    | none, none => if verb = "exit".toList then pure .exit else throw "unknown command"

/-- A line as `run` reads it: `none` when it is blank or a comment. -/
def runLine (line : List Char) : Option (Except String Command) :=
  match strim line with
  | [] => none
  | '#' :: _ => none
  | l => some (execute v l)

def Command.verb : Command → Option String
  | .create _ _ => some "create"
  | .tick _ => some "tick"
  | .cpuTopo _ => some "cpu-topo"
  | .cpuFreq _ _ => some "cpu-freq"
  | .policyFair _ _ _ => some "policy-fair"
  | .policyRt _ _ _ => some "policy-rt"
  | .affinity _ _ => some "affinity"
  | .cgroupCreate _ => some "cgroup-create"
  | .cgroupWeight _ _ => some "cgroup-weight"
  | .cgroupCpus _ _ => some "cgroup-cpus"
  | .cgroupDestroy _ => some "cgroup-destroy"
  | .cgroupAttach _ _ => some "cgroup-attach"
  | .check _ => some "check"
  | .task _ _ => none
  | .exit => none

variable {v} {arg : Arg} {c : Command} {verb : List Char}

theorem lookup_mem {α : Type} {table : List (String × α)} {a : α} (h : lookup table verb = some a) :
    ∃ name, name.toList = verb ∧ (name, a) ∈ table := by
  obtain ⟨e, he, rfl⟩ := Option.map_eq_some_iff.mp h
  exact ⟨e.1, by simpa using List.find?_some he, List.mem_of_find?_eq_some he⟩

theorem lookup_of_mem {α : Type} {table : List (String × α)} {name : String} {a : α}
    (hnodup : (table.map Prod.fst).Nodup) (h : (name, a) ∈ table) :
    lookup table name.toList = some a := by
  rcases hfind : table.find? fun e => e.1.toList == name.toList with _ | e
  · exact absurd (List.find?_eq_none.mp hfind (name, a) h) (by simp)
  · have hname : e.1 = name := String.toList_inj.mp (by simpa using List.find?_some hfind)
    have he : e = (name, a) :=
      List.inj_on_of_nodup_map hnodup (List.mem_of_find?_eq_some hfind) h hname
    rw [lookup, hfind, he]
    rfl

/-- A verb of the table finds its own command. -/
theorem lookup_commands {name : String} {cmd : Arg → Except String Command}
    (h : (name, cmd) ∈ commands v) : lookup (commands v) name.toList = some cmd := by
  have hnames : (commands v).map Prod.fst = ["create", "tick", "cpu-topo", "cpu-freq",
      "policy-fair", "policy-rt", "affinity", "cgroup-create", "cgroup-weight", "cgroup-cpus",
      "cgroup-destroy", "cgroup-attach", "check"] := rfl
  refine lookup_of_mem ?_ h
  rw [hnames]
  decide

/-- Each entry of `commands` answers with the command its verb names. -/
theorem commands_verb {cmd : Arg → Except String Command}
    (hcmd : lookup (commands v) verb = some cmd) (h : cmd arg = .ok c) :
    ∃ name, c.verb = some name ∧ name.toList = verb := by
  obtain ⟨name, hname, hmem⟩ := lookup_mem hcmd
  refine ⟨name, ?_, hname⟩
  simp only [commands, List.mem_cons, Prod.mk.injEq, List.not_mem_nil, or_false] at hmem
  rcases hmem with ⟨rfl, rfl⟩ | ⟨rfl, rfl⟩ | ⟨rfl, rfl⟩ | ⟨rfl, rfl⟩ | ⟨rfl, rfl⟩ | ⟨rfl, rfl⟩ |
    ⟨rfl, rfl⟩ | ⟨rfl, rfl⟩ | ⟨rfl, rfl⟩ | ⟨rfl, rfl⟩ | ⟨rfl, rfl⟩ | ⟨rfl, rfl⟩ | ⟨rfl, rfl⟩
  all_goals
    simp only [cmdCreate, cmdTick, cmdCpuTopo, cmdCpuFreq, cmdPolicyFair, cmdPolicyRt, cmdAffinity,
      cmdCgroupCreate, cmdCgroupWeight, cmdCgroupCpus, cmdCgroupDestroy, cmdCgroupAttach, cmdCheck,
      bind, Except.bind, Except.map] at h
    repeat' split at h
    all_goals cases h
    all_goals rfl

/-- What an accepted line can be: a command of the table, a verb on a task that exists, or
`exit`. -/
theorem execute_cases {line : List Char} (h : execute v line = .ok c) :
    (∃ arg cmd name, lookup (commands v) name.toList = some cmd ∧ cmd arg = .ok c ∧
        c.verb = some name) ∨
      (∃ act arg usage p rest, c = .task act p ∧ parseTask v arg usage = .ok (p, rest)) ∨
      c = .exit := by
  unfold execute at h
  split at h
  split at h
  · rename_i cmd hcmd
    obtain ⟨name, hverb, rfl⟩ := commands_verb hcmd h
    exact Or.inl ⟨_, cmd, name, hcmd, h, hverb⟩
  · rename_i act _ _
    simp only [bind, Except.bind] at h
    split at h
    · cases h
    · rename_i p hp
      cases h
      exact Or.inr (Or.inl ⟨act, _, _, p.1, p.2, rfl, hp⟩)
  · split_ifs at h
    cases h
    exact Or.inr (Or.inr rfl)

/-- A command of the table is what its entry answers to the rest of the line. -/
theorem execute_command {line : List Char} {name : String} (h : execute v line = .ok c)
    (hverb : c.verb = some name) :
    ∃ cmd, lookup (commands v) name.toList = some cmd ∧
      cmd (lineArg (strsep isBlank line).2) = .ok c := by
  unfold execute at h
  split at h
  rename_i verb rest hsep
  split at h
  · rename_i cmd hcmd
    obtain ⟨name', hverb', rfl⟩ := commands_verb hcmd h
    cases hverb.symm.trans hverb'
    refine ⟨cmd, hcmd, ?_⟩
    rw [hsep]
    exact h
  · simp only [bind, Except.bind] at h
    split at h
    · cases h
    · cases h
      cases hverb
  · split_ifs at h
    cases h
    cases hverb

theorem lineArg_subset {line s : List Char} (h : lineArg (strsep isBlank line).2 = some s) :
    s ⊆ line := by
  rcases hsep : strsep isBlank line with ⟨token, _ | rest⟩
  · rw [hsep] at h
    cases h
  · rw [hsep] at h
    simp only [lineArg, Option.map_some] at h
    split at h
    · cases h
    · cases h
      exact List.Subset.trans (strim_subset rest) ((strsep_subset hsep).2 rest rfl)

/-- What `parse_cgroup` has checked of the path it takes. -/
structure CgroupName (v : CliView) (arg : Arg) (create : Bool) (name : List Char) : Prop where
  fits : name.length + 1 < 48
  fresh : create = true → name ≠ [] ∧ v.cgroupExists name = false
  known : create = false → name = [] ∨ v.cgroupExists name = true
  mem : ∀ c ∈ name, ∃ s, arg = some s ∧ c ∈ s

theorem parseCgroup_name {usage : String} {create : Bool} {name : List Char} {rest : Arg}
    (h : parseCgroup v arg usage create = .ok (name, rest)) : CgroupName v arg create name := by
  unfold parseCgroup at h
  split at h
  · rename_i name' rest' htake
    have hmem : ∀ c ∈ name', ∃ s, arg = some s ∧ c ∈ s := by
      rcases arg with _ | s
      · cases htake
      · intro c hc
        obtain ⟨htoken, -⟩ := Prod.mk.inj htake
        have hsub := (strsep_subset (Prod.mk.eta (p := strsep isBlank s)).symm).1
        rw [Option.some.inj htoken] at hsub
        exact ⟨s, rfl, hsub (List.mem_cons_of_mem _ hc)⟩
    split_ifs at h with hlen hcreate hexists hmissing
    · cases h
      rw [Bool.or_eq_true, not_or, decide_eq_true_eq] at hlen
      rw [not_or, Bool.not_eq_true] at hexists
      exact ⟨by omega, fun _ => hexists, by simp [hcreate], hmem⟩
    · cases h
      rw [Bool.or_eq_true, not_or, decide_eq_true_eq] at hlen
      refine ⟨by omega, fun hc => absurd hc hcreate, fun _ => ?_, hmem⟩
      by_cases hnil : name = []
      · exact Or.inl hnil
      · simp only [hnil, ne_eq, not_false_eq_true, true_and, Bool.not_eq_true',
          Bool.not_eq_false] at hmissing
        exact Or.inr hmissing
  · cases h

theorem execute_create {line : List Char} {n : ℤ} {path : Arg}
    (h : execute v line = .ok (.create n path)) :
    ∃ arg, createRequest v arg = .ok (n, path) := by
  rcases execute_cases h with ⟨arg, cmd, name, hcmd, hc, hverb⟩ | ⟨_, _, _, _, _, hc, -⟩ | hc
  · cases hverb
    have hcreate : lookup (commands v) "create".toList = some (cmdCreate v) :=
      lookup_commands (List.mem_of_getElem? (i := 0) rfl)
    cases hcmd.symm.trans hcreate
    refine ⟨arg, ?_⟩
    simp only [cmdCreate, Except.map] at hc
    split at hc
    · cases hc
    · cases hc
      assumption
  · cases hc
  · cases hc

theorem execute_cgroupCreate {line name : List Char}
    (h : execute v line = .ok (.cgroupCreate name)) :
    CgroupName v (lineArg (strsep isBlank line).2) true name := by
  obtain ⟨cmd, hcmd, hc⟩ := execute_command h rfl
  have hcreate : lookup (commands v) "cgroup-create".toList = some (cmdCgroupCreate v) :=
    lookup_commands (List.mem_of_getElem? (i := 7) rfl)
  cases hcmd.symm.trans hcreate
  simp only [cmdCgroupCreate, bind, Except.bind] at hc
  split at hc
  · cases hc
  · cases hc
    exact parseCgroup_name ‹_›

theorem execute_cgroupAttach {line name : List Char} {p : ℕ}
    (h : execute v line = .ok (.cgroupAttach name p)) :
    CgroupName v (lineArg (strsep isBlank line).2) false name := by
  obtain ⟨cmd, hcmd, hc⟩ := execute_command h rfl
  have hattach : lookup (commands v) "cgroup-attach".toList = some (cmdCgroupAttach v) :=
    lookup_commands (List.mem_of_getElem? (i := 11) rfl)
  cases hcmd.symm.trans hattach
  simp only [cmdCgroupAttach, bind, Except.bind] at hc
  split at hc
  · cases hc
  · rename_i hparse
    split at hc
    · cases hc
    · cases hc
      exact parseCgroup_name hparse

/-- The path of a `create` is one that exists. -/
theorem execute_create_path {line name : List Char} {n : ℤ}
    (h : execute v line = .ok (.create n (some name))) :
    name = [] ∨ v.cgroupExists name = true := by
  obtain ⟨arg, harg⟩ := execute_create h
  simp only [createRequest, createArgs, bind, Except.bind] at harg
  split at harg
  · cases harg
  · rename_i args hargs
    split at hargs
    · cases hargs
    · rename_i count hcount
      split at hargs
      · cases hargs
      · rename_i path hpath
        cases hargs
        split_ifs at harg
        cases harg
        unfold createPath at hpath
        split at hpath
        · cases hpath
        · cases hpath
        · split at hpath
          · cases hpath
          · rename_i hparse
            cases hpath
            exact (parseCgroup_name hparse).known rfl
          · cases hpath

theorem parseTask_lt {usage : String} {p : ℕ} {rest : Arg}
    (h : parseTask v arg usage = .ok (p, rest)) : p < v.ntasks ∧ v.exited p = false := by
  unfold parseTask at h
  split at h
  · cases h
  · split at h
    · cases h
    · split_ifs at h with hpos hno
      cases h
      rw [not_or, Bool.not_eq_true] at hno
      exact ⟨by omega, hno.2⟩

theorem runLine_eq_execute {line : List Char} {r : Except String Command}
    (h : runLine v line = some r) : execute v (strim line) = r := by
  unfold runLine at h
  split at h
  · cases h
  · cases h
  · exact Option.some.inj h

end KStep.Cli
