import KStep.FuzzNumbering

/-!
# What a record says

A record stands for a command: a verb of the fuzzer's alphabet with arguments chosen among what the
host knows to exist. The line of a record is the spelling of its command, and what the host knows
afterwards depends on the command alone.
-/

namespace KStep.Fuzz

open CString Cli

inductive Command
  | tick
  | create
  | cpuFreq (cpu scale : ℕ)
  | policyFair (task : ℕ) (policy : Line) (nice : ℤ)
  | policyRt (task : ℕ) (policy : Line) (prio : ℕ)
  | affinity (task : ℕ) (cpus : List ℕ)
  | kill (task : ℕ)
  | cgroupCreate (parent : Line) (n : ℕ)
  | cgroupWeight (path : Line) (weight : ℕ)
  | cgroupDestroy (path : Line)
  | cgroupAttach (path : Line) (task : ℕ)
  | taskVerb (verb : Line) (task : ℕ)
  deriving DecidableEq

/-- The path of the `n`th cgroup under a parent, the root being spelled as nothing. -/
def cgroupPath (parent : Line) (n : ℕ) : Line := parent ++ "/g".toList ++ dec n

def cpuText (cpus : List ℕ) : List Char := [','].intercalate (cpus.map dec)

def Command.verb : Command → Line
  | .tick => "tick".toList
  | .create => "create".toList
  | .cpuFreq .. => "cpu-freq".toList
  | .policyFair .. => "policy-fair".toList
  | .policyRt .. => "policy-rt".toList
  | .affinity .. => "affinity".toList
  | .kill .. => "kill".toList
  | .cgroupCreate .. => "cgroup-create".toList
  | .cgroupWeight .. => "cgroup-weight".toList
  | .cgroupDestroy .. => "cgroup-destroy".toList
  | .cgroupAttach .. => "cgroup-attach".toList
  | .taskVerb verb _ => verb

def Command.arm : Command → Arm
  | .tick => .tick
  | .create => .create
  | .cpuFreq .. => .cpuFreq
  | .policyFair .. => .policyFair
  | .policyRt .. => .policyRt
  | .affinity .. => .affinity
  | .kill .. => .kill
  | .cgroupCreate .. => .cgroupCreate
  | .cgroupWeight .. => .cgroupWeight
  | .cgroupDestroy .. => .cgroupDestroy
  | .cgroupAttach .. => .cgroupAttach
  | .taskVerb .. => .other

def Command.args : Command → List (List Char)
  | .tick | .create => []
  | .cpuFreq cpu scale => [dec cpu, dec scale]
  | .policyFair task policy nice => [dec task, policy, decInt nice]
  | .policyRt task policy prio => [dec task, policy, dec prio]
  | .affinity task cpus => [dec task, cpuText cpus]
  | .kill task => [dec task]
  | .cgroupCreate parent n => [cgroupPath parent n]
  | .cgroupWeight path weight => [path, dec weight]
  | .cgroupDestroy path => [path]
  | .cgroupAttach path task => [path, dec task]
  | .taskVerb _ task => [dec task]

def Command.line (c : Command) : Line := say c.verb c.args

def Decoder.after (d : Decoder) : Command → Decoder
  | .create => d.addTasks 1
  | .kill task => { d with alive := d.alive.filter (· ≠ task) }
  | .cgroupCreate parent n => { d with cgroups := d.cgroups ++ [cgroupPath parent n] }
  | _ => d

/-- The CPUs a byte picks: the test CPUs whose bit is set, or one of them. -/
def Bug.cpus (bug : Bug) (b : ℕ) : List ℕ :=
  let cpus := (List.range bug.testCpus).filter fun i => b.testBit i
  if cpus = [] then [bug.cpu b] else cpus.map (· + 1)

def Bug.armCommand (bug : Bug) (d : Decoder) (r : Record) : Arm → Command
  | .tick => .tick
  | .create => .create
  | .cpuFreq => .cpuFreq (bug.cpu r.a.toNat) (1 + r.b.toNat % 1024)
  | .policyFair => .policyFair (d.task r.a.toNat) (fairPolicies.getD (r.b.toNat % 3) [])
      ((r.c.toNat : ℤ) % 40 - 20)
  | .policyRt => .policyRt (d.task r.a.toNat) (rtPolicies.getD (r.b.toNat % 2) [])
      (1 + r.c.toNat % 99)
  | .affinity => .affinity (d.task r.a.toNat) (bug.cpus r.b.toNat)
  | .kill => .kill (d.task r.a.toNat)
  | .cgroupCreate => .cgroupCreate
      (if d.cgroups = [] ∨ r.b.toNat % 2 = 0 then [] else d.cgroup r.b.toNat)
      (d.cgroups.length + 1)
  | .cgroupWeight => if d.cgroups = [] then .tick
      else .cgroupWeight (d.cgroup r.a.toNat) (1 + (r.b.toNat * 256 + r.c.toNat) % 10000)
  | .cgroupDestroy => if d.cgroups = [] then .tick else .cgroupDestroy (d.cgroup r.a.toNat)
  | .cgroupAttach => .cgroupAttach
      (if r.b.toNat % (d.cgroups.length + 1) = 0 then "/".toList
        else d.cgroups.getD (r.b.toNat % (d.cgroups.length + 1) - 1) []) (d.task r.a.toNat)
  | .other => .taskVerb (bug.verbAt r) (d.task r.a.toNat)

def Bug.command (bug : Bug) (d : Decoder) (r : Record) : Command :=
  if (armOf (bug.verbAt r)).needsTask && d.alive.isEmpty then .tick
  else bug.armCommand d r (armOf (bug.verbAt r))

variable {bug : Bug} {d : Decoder} {r : Record} {task task' : ℕ → Prop}
  {cgroup cgroup' : Line → Prop} {c : Command}

/-- A record emits the line of its command and leaves what the command leaves. -/
theorem record_eq (bug : Bug) (d : Decoder) (r : Record) :
    bug.record d r = (d.after (bug.command d r), (bug.command d r).line) := by
  unfold Bug.record Bug.command
  by_cases hidle : ((armOf (bug.verbAt r)).needsTask && d.alive.isEmpty) = true
  · simp only [if_pos hidle]
    rfl
  · simp only [if_neg hidle]
    cases armOf (bug.verbAt r) with
    | cgroupWeight =>
        simp only [Bug.armCommand]
        split_ifs <;> rfl
    | cgroupDestroy =>
        simp only [Bug.armCommand]
        split_ifs <;> rfl
    | cgroupAttach =>
        simp only [Bug.armCommand]
        rcases r.b.toNat % (d.cgroups.length + 1) with _ | g
        · rfl
        · rfl
    | _ => rfl

/-- The command of a record is one of its verb's arm, or a tick in its place. -/
theorem command_arm (bug : Bug) (d : Decoder) (r : Record) :
    (bug.command d r).arm = armOf (bug.verbAt r) ∨ bug.command d r = .tick := by
  unfold Bug.command
  split_ifs
  · exact Or.inr rfl
  · cases armOf (bug.verbAt r) with
    | cgroupWeight =>
        by_cases hnone : d.cgroups = []
        · exact Or.inr (if_pos hnone)
        · exact Or.inl (by simp only [Bug.armCommand, if_neg hnone, Command.arm])
    | cgroupDestroy =>
        by_cases hnone : d.cgroups = []
        · exact Or.inr (if_pos hnone)
        · exact Or.inl (by simp only [Bug.armCommand, if_neg hnone, Command.arm])
    | _ => exact Or.inl rfl

def oneTaskVerbs : List Line :=
  (taskVerbs.map fun e => e.1.toList).filter fun verb => armOf verb == .other

def Bug.TestCpu (bug : Bug) (cpu : ℕ) : Prop := 1 ≤ cpu ∧ cpu ≤ bug.testCpus

/-- A command whose arguments are in range, for given tasks and cgroups to refer to. -/
def Command.Allowed (bug : Bug) (task : ℕ → Prop) (cgroup : Line → Prop) : Command → Prop
  | .tick | .create => True
  | .cpuFreq cpu scale => bug.TestCpu cpu ∧ 1 ≤ scale ∧ scale ≤ 1024
  | .policyFair t policy nice => task t ∧ policy ∈ fairPolicies ∧ -20 ≤ nice ∧ nice ≤ 19
  | .policyRt t policy prio => task t ∧ policy ∈ rtPolicies ∧ 1 ≤ prio ∧ prio ≤ 99
  | .affinity t cpus => task t ∧ cpus ≠ [] ∧ ∀ cpu ∈ cpus, bug.TestCpu cpu
  | .kill t => task t
  | .cgroupCreate parent _ => parent = [] ∨ cgroup parent
  | .cgroupWeight path weight => cgroup path ∧ 1 ≤ weight ∧ weight ≤ 10000
  | .cgroupDestroy path => cgroup path
  | .cgroupAttach path t => (path = "/".toList ∨ cgroup path) ∧ task t
  | .taskVerb verb t => verb ∈ oneTaskVerbs ∧ task t

theorem Command.Allowed.mono (h : c.Allowed bug task cgroup) (htask : ∀ t, task t → task' t)
    (hcgroup : ∀ p, cgroup p → cgroup' p) : c.Allowed bug task' cgroup' := by
  cases c with
  | tick => trivial
  | create => trivial
  | cpuFreq cpu scale => exact h
  | policyFair t policy nice => exact ⟨htask t h.1, h.2⟩
  | policyRt t policy prio => exact ⟨htask t h.1, h.2⟩
  | affinity t cpus => exact ⟨htask t h.1, h.2⟩
  | kill t => exact htask t h
  | cgroupCreate parent n => exact h.imp id (hcgroup parent)
  | cgroupWeight path weight => exact ⟨hcgroup path h.1, h.2⟩
  | cgroupDestroy path => exact hcgroup path h
  | cgroupAttach path t => exact ⟨h.1.imp id (hcgroup path), htask t h.2⟩
  | taskVerb verb t => exact ⟨h.1, htask t h.2⟩

theorem getD_mem {α : Type} {xs : List α} {i : ℕ} {x : α} (h : i < xs.length) :
    xs.getD i x ∈ xs := by
  rw [List.getD_eq_getElem?_getD, List.getElem?_eq_getElem h, Option.getD_some]
  exact List.getElem_mem h

theorem getD_mod_mem {α : Type} {xs : List α} (h : xs ≠ []) (i : ℕ) (x : α) :
    xs.getD (i % xs.length) x ∈ xs :=
  getD_mem (Nat.mod_lt _ (List.length_pos_of_ne_nil h))

theorem cpu_test (hcpus : 2 ≤ bug.numCpus) (b : ℕ) : bug.TestCpu (bug.cpu b) := by
  have hlt : b % bug.testCpus < bug.testCpus := Nat.mod_lt _ (by unfold Bug.testCpus; omega)
  unfold Bug.TestCpu Bug.cpu
  omega

theorem cpus_test (hcpus : 2 ≤ bug.numCpus) (b : ℕ) :
    bug.cpus b ≠ [] ∧ ∀ cpu ∈ bug.cpus b, bug.TestCpu cpu := by
  unfold Bug.cpus
  simp only
  split_ifs with hnone
  · refine ⟨by simp, fun cpu hcpu => ?_⟩
    rw [List.mem_singleton.mp hcpu]
    exact cpu_test hcpus b
  · refine ⟨by simpa using hnone, fun cpu hcpu => ?_⟩
    obtain ⟨i, hi, rfl⟩ := List.mem_map.mp hcpu
    have hlt := List.mem_range.mp (List.mem_of_mem_filter hi)
    unfold Bug.TestCpu
    omega

/-- The verbs a bug may ask for: those with an arm, and the others that act on one task. -/
def Bug.KnownVerbs (bug : Bug) : Prop :=
  ∀ verb ∈ bug.verbs, armOf verb ≠ .other ∨ verb ∈ oneTaskVerbs

theorem verbAt_known (h : bug.KnownVerbs) (r : Record) :
    armOf (bug.verbAt r) ≠ .other ∨ bug.verbAt r ∈ oneTaskVerbs := by
  have hgeneral : ∀ verb ∈ generalVerbs, armOf verb ≠ .other ∨ verb ∈ oneTaskVerbs := by decide
  rcases List.mem_append.mp (verbAt_mem bug r) with hmem | hmem
  · exact hgeneral _ hmem
  · exact h _ hmem

/-- A record's command refers to tasks and cgroups the host knows, with arguments in range. -/
theorem command_allowed (hcpus : 2 ≤ bug.numCpus) (hverbs : bug.KnownVerbs) (d : Decoder)
    (r : Record) : (bug.command d r).Allowed bug (· ∈ d.alive) (· ∈ d.cgroups) := by
  unfold Bug.command
  split_ifs with hidle
  · trivial
  have htask (harm : (armOf (bug.verbAt r)).needsTask = true) (a : ℕ) : d.task a ∈ d.alive := by
    refine getD_mod_mem (fun hnone => hidle ?_) a 0
    simp [harm, hnone]
  cases harm : armOf (bug.verbAt r) with
  | tick => trivial
  | create => trivial
  | cpuFreq => exact ⟨cpu_test hcpus _, by omega, by omega⟩
  | policyFair =>
      exact ⟨htask (by rw [harm]; rfl) _, getD_mod_mem (by decide) _ _, by omega, by omega⟩
  | policyRt =>
      exact ⟨htask (by rw [harm]; rfl) _, getD_mod_mem (by decide) _ _, by omega, by omega⟩
  | affinity => exact ⟨htask (by rw [harm]; rfl) _, cpus_test hcpus _⟩
  | kill => exact htask (by rw [harm]; rfl) _
  | cgroupCreate =>
      by_cases hroot : d.cgroups = [] ∨ r.b.toNat % 2 = 0
      · exact Or.inl (if_pos hroot)
      · refine Or.inr ?_
        rw [if_neg hroot]
        exact getD_mod_mem (fun hnone => hroot (Or.inl hnone)) _ _
  | cgroupWeight =>
      simp only [Bug.armCommand]
      split_ifs with hnone
      · trivial
      · exact ⟨getD_mod_mem hnone _ _, by omega, by omega⟩
  | cgroupDestroy =>
      simp only [Bug.armCommand]
      split_ifs with hnone
      · trivial
      · exact getD_mod_mem hnone _ _
  | cgroupAttach =>
      refine ⟨?_, htask (by rw [harm]; rfl) _⟩
      split_ifs with hroot
      · exact Or.inl rfl
      · have hlt : r.b.toNat % (d.cgroups.length + 1) < d.cgroups.length + 1 :=
          Nat.mod_lt _ (Nat.succ_pos _)
        exact Or.inr (getD_mem (by omega))
  | other =>
      refine ⟨?_, htask (by rw [harm]; rfl) _⟩
      exact (verbAt_known hverbs r).resolve_left fun hne => hne harm

end KStep.Fuzz
