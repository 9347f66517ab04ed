import KStep.TaskTable
import KStep.TopologyEntries

/-!
# Where the session's tasks may run

A task's CPU mask is set when it is created, to the test CPUs of that moment, and by `affinity`.
The test CPUs are moved by `cpu-topo`, whether it accepts its spec or rejects one of its entries.
A mask stays within the test CPUs as long as no `cpu-topo` asks for fewer of them than a live task
may run on.
-/

namespace KStep

open KStep.Topology Cli Runs

/-- A task of the session, with the mask the module last set for it. -/
structure MaskedTask where
  live : Bool
  mask : Finset ℕ

/-- What the masks depend on: the topology with its test CPUs, `tasks[]`, and whether `run` reads
another line. -/
structure MaskSession where
  topo : Topo
  tasks : List MaskedTask
  more : Bool

/-- The kernel's part in a line: the cgroups that exist, what `sched_setaffinity` returns, and the
task of a `create` that cannot be moved into its cgroup. -/
structure KernelAnswers where
  cgroupExists : List Char → Bool
  setAffinity : ℤ
  refused : Option ℕ

inductive MaskLabel
  | line (text : List Char) (answers : KernelAnswers)
  /-- a task exits -/
  | exited (p : ℕ)

def MaskSession.view (E : Env) (s : MaskSession) (x : KernelAnswers) : CliView where
  ntasks := s.tasks.length
  exited p := match s.tasks[p]? with
    | some task => !task.live
    | none => false
  cgroupExists := x.cgroupExists
  testNcpus := s.topo.testNcpus
  validCpus list := (list.bind (kstepParseCpus E s.topo.testNcpus)).isSome

def kstepTaskSetAffinity (E : Env) (k : ℕ) (ret : ℤ) (cpulist : Arg) : Except ℤ (Finset ℕ) :=
  match cpulist.bind (kstepParseCpus E k) with
  | none => .error (-34)
  | some mask => if ret = 0 then .ok mask else .error ret

def testCpuRange (k : ℕ) : List Char := '1' :: '-' :: Nat.toDigits 10 k

/-- A command's effect on the masks; a new task that cannot be pinned is a panic. -/
def maskCommand (E : Env) (s : MaskSession) (x : KernelAnswers) : Command → Option MaskSession
  | .create n path =>
      match kstepTaskSetAffinity E s.topo.testNcpus x.setAffinity
        (some (testCpuRange s.topo.testNcpus)) with
      | .error _ => none
      | .ok mask => (fill (fun _ => ⟨true, mask⟩) (createdTasks n path x.refused) 0 s.tasks).map
          fun tasks => { s with tasks := tasks }
  | .affinity p cpus =>
      match kstepTaskSetAffinity E s.topo.testNcpus x.setAffinity cpus with
      | .error _ => some s
      | .ok mask => some { s with tasks := s.tasks.modify p fun task => { task with mask := mask } }
  | .cpuTopo spec => (kstepTopoSet E s.topo spec).map fun result => { s with topo := result.2 }
  | .exit => some { s with more := false }
  | _ => some s

def maskStep (E : Env) (s : MaskSession) : MaskLabel → Option MaskSession
  | .line text x =>
      if s.more then
        match runLine (s.view E x) text with
        | some (.ok c) => maskCommand E s x c
        | _ => some s
      else none
  | .exited p => some { s with tasks := s.tasks.modify p fun task => { task with live := false } }

/-- A mask of test CPUs: every CPU in it is ticked, settled on and reported. -/
def Watched (k : ℕ) (mask : Finset ℕ) : Prop := mask.Nonempty ∧ mask ⊆ testCpus k

def MaskSession.Watched (s : MaskSession) : Prop :=
  ∀ task ∈ s.tasks, task.live = true → KStep.Watched s.topo.testNcpus task.mask

/-- The test CPUs a `cpu-topo` asks for hold every CPU that a live task may run on. -/
def CoversTasks (E : Env) (s : MaskSession) : MaskLabel → Prop
  | .line text x => match runLine (s.view E x) text with
    | some (.ok (.cpuTopo spec)) => match topoCpus E spec with
      | some k => ∀ task ∈ s.tasks, task.live = true → task.mask ⊆ testCpus k
      | none => True
    | _ => True
  | .exited _ => True

variable {E : Env} {s s' : MaskSession} {x : KernelAnswers} {k : ℕ}

theorem kstepParseCpus_watched {list : List Char} {mask : Finset ℕ}
    (h : kstepParseCpus E k list = some mask) : Watched k mask := by
  refine ⟨?_, kstepParseCpus_subset h⟩
  simp only [kstepParseCpus] at h
  split at h
  · cases h
  · split_ifs at h with hmask
    cases h
    exact Finset.nonempty_iff_ne_empty.mpr hmask.1

/-- Every mask the module sets is one of test CPUs. -/
theorem kstepTaskSetAffinity_watched {ret : ℤ} {cpulist : Arg} {mask : Finset ℕ}
    (h : kstepTaskSetAffinity E k ret cpulist = .ok mask) : Watched k mask := by
  simp only [kstepTaskSetAffinity] at h
  split at h
  · cases h
  · rename_i parsed hparse
    split_ifs at h
    cases h
    obtain ⟨list, -, hlist⟩ := Option.bind_eq_some_iff.mp hparse
    exact kstepParseCpus_watched hlist

/-- A call leaves the count it was asked for, or the one it found. -/
theorem kstepTopoSet_testNcpus {t t' : Topo} {spec : List Char} {err : Option String}
    (h : kstepTopoSet E t spec = some (err, t')) :
    t'.testNcpus = (topoCpus E spec).getD t.testNcpus := by
  rcases kstepTopoSet_cases h with ⟨hnone, -, rfl⟩ | ⟨k, table, masks, hk, -, -, hcase⟩
  · rw [hnone, Option.getD_none]
  · rw [hk, Option.getD_some]
    rcases hcase with ⟨-, rfl⟩ | ⟨-, happly⟩
    · rfl
    · exact (topoApply_some happly).2.2.1

/-- A command other than a `cpu-topo` that asks for too few CPUs keeps every task watched. -/
theorem maskCommand_watched {c : Command} (hs : s.Watched)
    (hcovers : ∀ spec k, c = .cpuTopo spec → topoCpus E spec = some k →
      ∀ task ∈ s.tasks, task.live = true → task.mask ⊆ testCpus k)
    (h : maskCommand E s x c = some s') : s'.Watched := by
  unfold maskCommand at h
  split at h
  · split at h
    · cases h
    · rename_i mask hmask
      obtain ⟨tasks, hfill, rfl⟩ := Option.map_eq_some_iff.mp h
      intro task htask hlive
      rcases fill_mem hfill htask with hold | ⟨j, rfl⟩
      · exact hs task hold hlive
      · exact kstepTaskSetAffinity_watched hmask
  · split at h
    · cases h
      exact hs
    · rename_i mask hmask
      cases h
      intro task htask hlive
      rcases mem_modify_cases htask with hold | ⟨old, -, rfl⟩
      · exact hs task hold hlive
      · exact kstepTaskSetAffinity_watched hmask
  · rename_i spec
    obtain ⟨⟨err, t'⟩, hset, rfl⟩ := Option.map_eq_some_iff.mp h
    intro task htask hlive
    have hcount := kstepTopoSet_testNcpus hset
    refine ⟨(hs task htask hlive).1, ?_⟩
    simp only [hcount]
    cases hk : topoCpus E spec with
    | none => exact (hs task htask hlive).2
    | some k => exact hcovers spec k rfl hk task htask hlive
  · cases h
    exact hs
  · cases h
    exact hs

theorem maskStep_watched {e : MaskLabel} (hcovers : CoversTasks E s e)
    (h : maskStep E s e = some s') (hs : s.Watched) : s'.Watched := by
  rcases e with ⟨text, x⟩ | p
  · simp only [maskStep] at h
    split_ifs at h
    split at h
    · rename_i c hline
      refine maskCommand_watched hs ?_ h
      rintro spec k rfl hk
      simp only [CoversTasks, hline, hk] at hcovers
      exact hcovers
    · cases h
      exact hs
  · cases h
    intro task htask hlive
    rcases mem_modify_cases htask with hold | ⟨old, -, rfl⟩
    · exact hs task hold hlive
    · cases hlive

/-- In every session whose `cpu-topo` lines ask for all the CPUs that live tasks may run on, every
live task's mask is a nonempty set of test CPUs at all times. -/
theorem tasks_watched (E : Env) (t : Topo) (l : List MaskLabel) (s : MaskSession)
    (h : run (maskStep E) ⟨t, [], true⟩ l = some s)
    (hl : Always (maskStep E) (CoversTasks E) ⟨t, [], true⟩ l) :
    ∀ task ∈ s.tasks, task.live = true →
      task.mask.Nonempty ∧ task.mask ⊆ testCpus s.topo.testNcpus := by
  refine run_invariant_of_always (I := MaskSession.Watched) ?_ h hl ?_
  · intro s e s' hcovers hstep hs
    exact maskStep_watched hcovers hstep hs
  · intro task htask
    cases htask

def rangeEnv : Env :=
  { fourCpuEnv with
    cpulistParse := fun list =>
      if list = "1-3".toList then some {1, 2, 3} else if list = "1".toList then some {1} else none }

def plainAnswers : KernelAnswers := ⟨fun _ => false, 0, none⟩

def maskLine (text : String) : MaskLabel := .line text.toList plainAnswers

/-- A task created on three test CPUs is still allowed on all of them when `cpu-topo` leaves one. -/
theorem narrowed_task_unwatched : ∃ t s, kstepCpuInit rangeEnv (fourCpuMachine.boot rangeEnv) =
      some t ∧
    run (maskStep rangeEnv) ⟨t, [], true⟩ [maskLine "create", maskLine "cpu-topo CPUS=1"] =
      some s ∧
    ∃ task ∈ s.tasks, task.live = true ∧ ¬ task.mask ⊆ testCpus s.topo.testNcpus :=
  ⟨_, _, rfl, rfl, ⟨true, {1, 2, 3}⟩, List.mem_singleton.mpr rfl, rfl, by decide⟩

def rangeTopo : Topo := { fourCpuMachine.boot rangeEnv with testNcpus := 3 }

def pinnedFirst : List MaskLabel :=
  [maskLine "create", maskLine "affinity 1 1", maskLine "cpu-topo CPUS=2"]

theorem narrowing_to_two_covers :
    CoversTasks rangeEnv ⟨rangeTopo, [⟨true, {1}⟩], true⟩ (maskLine "cpu-topo CPUS=2") := by
  have hline : runLine (MaskSession.view rangeEnv ⟨rangeTopo, [⟨true, {1}⟩], true⟩ plainAnswers)
      "cpu-topo CPUS=2".toList = some (.ok (.cpuTopo "CPUS=2".toList)) := rfl
  have hcpus : topoCpus rangeEnv "CPUS=2".toList = some 2 := rfl
  simp only [CoversTasks, maskLine, hline, hcpus, List.mem_singleton]
  rintro task rfl -
  decide

theorem tasks_watched_pinned_first : ∃ s,
    run (maskStep rangeEnv) ⟨rangeTopo, [], true⟩ pinnedFirst = some s ∧
      ∀ task ∈ s.tasks, task.live = true →
        task.mask.Nonempty ∧ task.mask ⊆ testCpus s.topo.testNcpus := by
  have hcreate : maskStep rangeEnv ⟨rangeTopo, [], true⟩ (maskLine "create") =
    some ⟨rangeTopo, [⟨true, {1, 2, 3}⟩], true⟩ := rfl
  have hpin : maskStep rangeEnv ⟨rangeTopo, [⟨true, {1, 2, 3}⟩], true⟩ (maskLine "affinity 1 1") =
    some ⟨rangeTopo, [⟨true, {1}⟩], true⟩ := rfl
  refine ⟨_, rfl, tasks_watched rangeEnv rangeTopo pinnedFirst _ rfl ?_⟩
  simp only [pinnedFirst, Always, hcreate, hpin]
  refine ⟨trivial, trivial, narrowing_to_two_covers, ?_⟩
  split <;> trivial

end KStep
