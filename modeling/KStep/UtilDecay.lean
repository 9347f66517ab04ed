import KStep.Topology
import KStep.TaskTable
import KStep.Runs

/-!
# The util_decay rule

From one tick end to the next the utilization of a CPU falls by less than a task's worth, unless a
task left it or changed class on it. The rule keeps a baseline for each CPU and, for each slot of
`tasks[]`, the CPU and the policy it last saw there, and voids the baselines a task has touched. A
task that has exited keeps its slot, so the baseline of its CPU is void at every later tick end.
-/

namespace KStep.UtilDecay

open KStep.Topology Cli Runs

structure Task where
  pid : ℕ
  cpu : ℕ
  policy : ℕ
  exited : Bool
  deriving DecidableEq

structure Seen where
  pid : ℕ
  cpu : ℕ
  policy : ℕ
  deriving DecidableEq

structure UtilObs where
  cfs : ℤ
  rt : ℤ
  valid : Bool
  deriving DecidableEq

/-- What the rule reads of a run queue; `leafRemoved` are the `removed.util_avg` of its leaves. -/
structure Rq where
  cfsUtilAvg : ℕ
  cfsRemoved : ℕ
  leafRemoved : List ℕ
  rtUtilAvg : ℕ

structure Checker where
  seen : ℕ → Seen
  last : ℕ → UtilObs

structure Warning where
  cpu : ℕ
  lastCfs : ℤ
  curCfs : ℤ
  lastRt : ℤ
  curRt : ℤ
  deriving DecidableEq

def Warning.message (w : Warning) : String :=
  s!"util on cpu {w.cpu} fell in one tick: cfs {w.lastCfs} -> {w.curCfs}, " ++
    s!"rt {w.lastRt} -> {w.curRt}"

def cfsUtil (rq : Rq) : ℤ := rq.cfsUtilAvg - rq.cfsRemoved - rq.leafRemoved.sum

def observe (rq : Rq) : UtilObs := ⟨cfsUtil rq, rq.rtUtilAvg, true⟩

def Task.seen (p : Task) : Seen := ⟨p.pid, p.cpu, p.policy⟩

/-- `per_cpu_ptr(&last_util, cpu)->valid = false`. -/
def drop (last : ℕ → UtilObs) (cpu : ℕ) : ℕ → UtilObs :=
  fun c => if c = cpu then { last c with valid := false } else last c

def look (s : Checker) (i : ℕ) (p : Task) : Checker :=
  if (s.seen i).pid ≠ p.pid then
    ⟨fun j => if j = i then p.seen else s.seen j, drop s.last p.cpu⟩
  else if (s.seen i).cpu ≠ p.cpu ∨ (s.seen i).policy ≠ p.policy ∨ p.exited then
    ⟨fun j => if j = i then ⟨(s.seen i).pid, p.cpu, p.policy⟩ else s.seen j,
      drop (drop s.last (s.seen i).cpu) p.cpu⟩
  else s

def lookAll : ℕ → List Task → Checker → Checker
  | _, [], s => s
  | i, p :: tasks, s => if i < kstepShmTasks then lookAll (i + 1) tasks (look s i p) else s

def Fell (last cur : UtilObs) : Prop :=
  (schedCapacityScale : ℤ) ≤ last.cfs - cur.cfs ∨ (schedCapacityScale : ℤ) ≤ last.rt - cur.rt ∨
    (schedCapacityScale : ℤ) ≤ last.cfs + last.rt - cur.cfs - cur.rt

instance (last cur : UtilObs) : Decidable (Fell last cur) :=
  inferInstanceAs (Decidable (_ ∨ _ ∨ _))

def compare (rq : ℕ → Rq) (last : ℕ → UtilObs) (cpu : ℕ) : Option Warning :=
  if (last cpu).valid ∧ Fell (last cpu) (observe (rq cpu)) then
    some ⟨cpu, (last cpu).cfs, (observe (rq cpu)).cfs, (last cpu).rt, (observe (rq cpu)).rt⟩
  else none

def onTickEnd (k : ℕ) (rq : ℕ → Rq) (tasks : List Task) (s : Checker) : List Warning × Checker :=
  let s' := lookAll 0 tasks s
  ((List.range' 1 k).filterMap (compare rq s'.last),
    ⟨s'.seen, fun c => if c ∈ testCpus k then observe (rq c) else s'.last c⟩)

/-- A baseline that the task `p` voids, with `q` what was last seen in its slot. -/
def Voids (q : Seen) (p : Task) (c : ℕ) : Prop :=
  if q.pid ≠ p.pid then c = p.cpu
  else (q.cpu ≠ p.cpu ∨ q.policy ≠ p.policy ∨ p.exited) ∧ (c = q.cpu ∨ c = p.cpu)

theorem look_seen (s : Checker) (i j : ℕ) (p : Task) :
    (look s i p).seen j = if j = i then p.seen else s.seen j := by
  rw [look]
  split
  · rfl
  next hpid =>
    have hsame : (s.seen i).pid = p.pid := not_ne_iff.mp hpid
    split
    · simp only [hsame]
      rfl
    next hkept =>
      rw [not_or, not_or, not_ne_iff, not_ne_iff] at hkept
      have heq : s.seen i = p.seen := by
        rw [Task.seen, ← hsame, ← hkept.1, ← hkept.2.1]
      by_cases hj : j = i
      · rw [if_pos hj, hj, heq]
      · rw [if_neg hj]

theorem drop_obs (last : ℕ → UtilObs) (cpu c : ℕ) :
    (drop last cpu c).cfs = (last c).cfs ∧ (drop last cpu c).rt = (last c).rt ∧
      ((drop last cpu c).valid ↔ (last c).valid ∧ c ≠ cpu) := by
  rw [drop]
  split_ifs with hc
  · simp [hc]
  · simp [hc]

theorem look_last (s : Checker) (i c : ℕ) (p : Task) :
    ((look s i p).last c).cfs = (s.last c).cfs ∧ ((look s i p).last c).rt = (s.last c).rt ∧
      (((look s i p).last c).valid ↔ (s.last c).valid ∧ ¬ Voids (s.seen i) p c) := by
  rw [look, Voids]
  by_cases hpid : (s.seen i).pid ≠ p.pid
  · simp only [if_pos hpid]
    exact drop_obs s.last p.cpu c
  · simp only [if_neg hpid]
    by_cases hchanged : (s.seen i).cpu ≠ p.cpu ∨ (s.seen i).policy ≠ p.policy ∨ p.exited
    · obtain ⟨hcfs, hrt, hvalid⟩ := drop_obs s.last (s.seen i).cpu c
      obtain ⟨hcfs', hrt', hvalid'⟩ := drop_obs (drop s.last (s.seen i).cpu) p.cpu c
      simp only [if_pos hchanged]
      refine ⟨hcfs'.trans hcfs, hrt'.trans hrt, ?_⟩
      rw [hvalid', hvalid, and_assoc, not_and, not_or]
      exact and_congr_right fun _ => ⟨fun h _ => h, fun h => h hchanged⟩
    · simp [hchanged]

/-- What the first loop leaves: what it saw last of each slot, and the baselines no task voids. -/
theorem lookAll_seen {tasks : List Task} {i : ℕ} (s : Checker)
    (hlen : i + tasks.length ≤ kstepShmTasks) (j : ℕ) :
    (lookAll i tasks s).seen j =
      if j < i then s.seen j else ((tasks[j - i]?).map Task.seen).getD (s.seen j) := by
  induction tasks generalizing i s with
  | nil => simp [lookAll]
  | cons p tasks ih =>
      rw [List.length_cons] at hlen
      rw [lookAll, if_pos (by omega), ih _ (by omega), look_seen]
      rcases Nat.lt_trichotomy j i with hj | hj | hj
      · rw [if_pos (by omega), if_neg (by omega), if_pos hj]
      · rw [if_pos (by omega), if_pos hj, if_neg (by omega), hj, Nat.sub_self]
        rfl
      · rw [if_neg (by omega), if_neg (by omega), if_neg (by omega)]
        rw [show j - i = (j - (i + 1)) + 1 by omega, List.getElem?_cons_succ]

theorem lookAll_last {tasks : List Task} {i : ℕ} (s : Checker)
    (hlen : i + tasks.length ≤ kstepShmTasks) (c : ℕ) :
    ((lookAll i tasks s).last c).cfs = (s.last c).cfs ∧
      ((lookAll i tasks s).last c).rt = (s.last c).rt ∧
      (((lookAll i tasks s).last c).valid ↔ (s.last c).valid ∧
        ∀ j p, tasks[j]? = some p → ¬ Voids (s.seen (i + j)) p c) := by
  induction tasks generalizing i s with
  | nil => simp [lookAll]
  | cons p tasks ih =>
      rw [List.length_cons] at hlen
      obtain ⟨hcfs, hrt, hvalid⟩ := look_last s i c p
      obtain ⟨hcfs', hrt', hvalid'⟩ := ih (look s i p) (i := i + 1) (by omega)
      rw [lookAll, if_pos (by omega)]
      refine ⟨hcfs'.trans hcfs, hrt'.trans hrt, ?_⟩
      rw [hvalid', hvalid, and_assoc, and_congr_right_iff]
      intro _
      constructor
      · rintro ⟨hfirst, hrest⟩ j q hq
        cases j with
        | zero =>
            cases hq
            exact hfirst
        | succ j =>
            have hnot := hrest j q hq
            rw [look_seen, if_neg (by omega)] at hnot
            rw [show i + (j + 1) = i + 1 + j by omega]
            exact hnot
      · intro hall
        refine ⟨hall 0 p rfl, ?_⟩
        intro j q hq
        rw [look_seen, if_neg (by omega), show i + 1 + j = i + (j + 1) by omega]
        exact hall (j + 1) q hq

theorem compare_eq_some_iff {rq : ℕ → Rq} {last : ℕ → UtilObs} {cpu : ℕ} {w : Warning} :
    compare rq last cpu = some w ↔ ((last cpu).valid ∧ Fell (last cpu) (observe (rq cpu))) ∧
      w = ⟨cpu, (last cpu).cfs, cfsUtil (rq cpu), (last cpu).rt, (rq cpu).rtUtilAvg⟩ := by
  rw [compare]
  split
  next hfell =>
    rw [Option.some.injEq, and_iff_right hfell]
    exact eq_comm
  next hfell => simp only [reduceCtorEq, hfell, false_and]

/-- A CPU is reported when its baseline is left valid and has fallen. -/
theorem exists_warning_iff {k c : ℕ} {rq : ℕ → Rq} {tasks : List Task} {s : Checker}
    (hc : c ∈ testCpus k) :
    (∃ w ∈ (onTickEnd k rq tasks s).1, w.cpu = c) ↔
      ((lookAll 0 tasks s).last c).valid ∧
        Fell ((lookAll 0 tasks s).last c) (observe (rq c)) := by
  have hmem : c ∈ List.range' 1 k := by
    obtain ⟨hlow, hhigh⟩ := Finset.mem_Icc.mp hc
    exact List.mem_range'_1.mpr ⟨hlow, by omega⟩
  constructor
  · rintro ⟨w, hw, hcpu⟩
    obtain ⟨cpu, -, hcompare⟩ := List.mem_filterMap.mp hw
    obtain ⟨hfell, rfl⟩ := compare_eq_some_iff.mp hcompare
    obtain rfl : cpu = c := hcpu
    exact hfell
  · intro hfell
    have hcompare := compare_eq_some_iff.mpr ⟨hfell, rfl⟩
    exact ⟨_, List.mem_filterMap.mpr ⟨c, hmem, hcompare⟩, rfl⟩

end KStep.UtilDecay
