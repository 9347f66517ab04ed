import KStep.Topology
import Mathlib.Order.Interval.Finset.Nat

/-!
# The work_conserve rule

At every tick end the rule looks for a test CPU that is idle while a runnable session task that may
run there is queued behind another one. One counter, an `int`, stands for the tick ends in a row at
which it found both and enough runnable tasks. The rule counts the CPUs with `num_online_cpus`, not
with `kstep_test_ncpus`, and names the lowest idle CPU, whichever CPU the waiting task may use and
however long that one has been idle.
-/

namespace KStep.WorkConserve

open KStep.Topology

def kstepIdleTicks : Int32 := 4

structure Task where
  pid : ℕ
  exited : Bool
  /-- `__state` is `TASK_RUNNING` -/
  running : Bool
  cpu : ℕ
  cpusPtr : Finset ℕ
  deriving DecidableEq

/-- What the rule reads at a tick end. -/
structure View where
  numOnlineCpus : ℕ
  testNcpus : ℕ
  nrRunning : ℕ → ℕ
  tasks : List Task

structure Warning where
  task : Task
  others : ℕ
  idleCpu : ℕ
  ticks : Int32
  deriving DecidableEq

def Warning.message (w : Warning) : String :=
  s!"task {w.task.pid} queued on cpu {w.task.cpu} behind {w.others} others " ++
    s!"while cpu {w.idleCpu} has been idle for {w.ticks} ticks"

def View.idle (v : View) : Finset ℕ := (testCpus v.testNcpus).filter fun cpu => v.nrRunning cpu = 0

/-- `cpumask_first`, of a nonempty mask. -/
def cpumaskFirst (mask : Finset ℕ) : ℕ := mask.min.untopD 0

def Task.runnable (p : Task) : Bool := !p.exited && p.running

def View.waits (v : View) (p : Task) : Bool :=
  decide (1 < v.nrRunning p.cpu) && decide (p.cpusPtr ∩ v.idle ≠ ∅)

def View.scan (v : View) (s : ℕ × Option Task) (p : Task) : ℕ × Option Task :=
  if p.runnable then (s.1 + 1, if s.2.isNone && v.waits p then some p else s.2) else s

def onTickEnd (streak : Int32) (v : View) : Int32 × Option Warning :=
  match v.tasks.foldl v.scan (0, none) with
  | (_, none) => (0, none)
  | (runnable, some waiting) =>
      if v.idle = ∅ ∨ runnable < v.numOnlineCpus - 1 then (0, none)
      else if kstepIdleTicks ≤ streak + 1 then
        (streak + 1, some
          ⟨waiting, v.nrRunning waiting.cpu - 1, cpumaskFirst v.idle, streak + 1⟩)
      else (streak + 1, none)

/-- `idle_streak` after the tick ends of `l`. -/
def idleStreak (l : List View) : Int32 := l.foldl (fun streak v => (onTickEnd streak v).1) 0

def warning (l : List View) (v : View) : Option Warning := (onTickEnd (idleStreak l) v).2

def View.runnable (v : View) : ℕ := v.tasks.countP Task.runnable

/-- The first runnable task that waits for an idle CPU it may use. -/
def View.waiting (v : View) : Option Task := v.tasks.find? fun p => p.runnable && v.waits p

theorem foldl_scan (v : View) (l : List Task) (n : ℕ) (w : Option Task) :
    l.foldl v.scan (n, w) =
      (n + l.countP Task.runnable, w.or (l.find? fun p => p.runnable && v.waits p)) := by
  induction l generalizing n w with
  | nil => simp
  | cons p l ih =>
      rw [List.foldl_cons, View.scan]
      split
      next hrun =>
        rw [ih, List.countP_cons_of_pos hrun]
        refine Prod.ext (by simp only; omega) ?_
        cases w with
        | some a => simp
        | none =>
            cases hwait : v.waits p with
            | true => simp [hrun, hwait]
            | false => simp [hwait]
      next hrun =>
        rw [ih, List.countP_cons_of_neg hrun]
        simp [hrun]

/-- The rule's own test of a tick end. -/
def View.Counts (v : View) : Prop :=
  v.idle ≠ ∅ ∧ v.waiting.isSome ∧ v.numOnlineCpus - 1 ≤ v.runnable

instance (v : View) : Decidable v.Counts := inferInstanceAs (Decidable (_ ∧ _ ∧ _))

theorem onTickEnd_eq (streak : Int32) (v : View) : onTickEnd streak v =
    if v.Counts then (streak + 1, if kstepIdleTicks ≤ streak + 1 then
      v.waiting.map fun p => ⟨p, v.nrRunning p.cpu - 1, cpumaskFirst v.idle, streak + 1⟩ else none)
    else (0, none) := by
  have hscan : v.tasks.foldl v.scan (0, none) = (v.runnable, v.waiting) := by
    rw [foldl_scan, Nat.zero_add, Option.none_or]
    rfl
  rw [onTickEnd, hscan]
  cases hwait : v.waiting with
  | none => simp [View.Counts, hwait]
  | some p =>
      by_cases hcounts : v.Counts
      · have hnot : ¬ (v.idle = ∅ ∨ v.runnable < v.numOnlineCpus - 1) := by
          rw [not_or, Nat.not_lt]
          exact ⟨hcounts.1, hcounts.2.2⟩
        simp only [if_pos hcounts, if_neg hnot, Option.map_some]
        split
        · rfl
        · rfl
      · have hnot : v.idle = ∅ ∨ v.runnable < v.numOnlineCpus - 1 := by
          by_contra hor
          rw [not_or, Nat.not_lt] at hor
          exact hcounts ⟨hor.1, by rw [hwait, Option.isSome_some], hor.2⟩
        simp only [if_neg hcounts, if_pos hnot]

def counted (l : List View) : ℕ := (l.reverse.takeWhile fun v => decide v.Counts).length

theorem counted_concat (l : List View) (v : View) :
    counted (l ++ [v]) = if v.Counts then counted l + 1 else 0 := by
  rw [counted, List.reverse_append, List.reverse_singleton, List.singleton_append,
    List.takeWhile_cons]
  by_cases hv : v.Counts
  · simp only [hv, decide_true, if_true, List.length_cons, counted]
  · simp only [hv, decide_false, if_false, Bool.false_eq_true, List.length_nil]

theorem idleStreak_concat (l : List View) (v : View) :
    idleStreak (l ++ [v]) = if v.Counts then idleStreak l + 1 else 0 := by
  rw [idleStreak, List.foldl_append, List.foldl_cons, List.foldl_nil, onTickEnd_eq]
  split
  · rfl
  · rfl

/-- The counter is the number of counted tick ends, in 32 bits. -/
theorem idleStreak_eq (l : List View) : idleStreak l = Int32.ofNat (counted l) := by
  induction l using List.reverseRecOn with
  | nil => rfl
  | append_singleton l v ih =>
      rw [idleStreak_concat, counted_concat, ih]
      split
      · exact (Int32.ofNat_add _ _).symm
      · rfl

theorem counted_le_length (l : List View) : counted l ≤ l.length := by
  rw [← List.length_reverse]
  exact (List.takeWhile_sublist _).length_le

/-- The tick ends counted are the last ones. -/
theorem length_le_counted_iff (l m : List View) :
    m.length ≤ counted (l ++ m) ↔ ∀ v ∈ m, v.Counts := by
  induction m using List.reverseRecOn with
  | nil => simp
  | append_singleton m v ih =>
      rw [← List.append_assoc, counted_concat, List.length_append, List.length_singleton,
        List.forall_mem_append, List.forall_mem_singleton, ← ih]
      split
      next hv => simp only [hv, and_true, Nat.add_le_add_iff_right]
      next hv => simp only [hv, and_false, Nat.le_zero, Nat.succ_ne_zero]

def InRange (t : ℕ) : Prop := 4 ≤ t % 2 ^ 32 ∧ t % 2 ^ 32 < 2 ^ 31

theorem kstepIdleTicks_le_ofNat (t : ℕ) : kstepIdleTicks ≤ Int32.ofNat t ↔ InRange t := by
  have hticks : kstepIdleTicks.toInt = 4 := rfl
  have hsize : Int32.size = 2 ^ 32 := rfl
  rw [Int32.le_iff_toInt_le, hticks, Int32.toInt_ofNat', hsize, Int.bmod_def, InRange]
  push_cast
  split_ifs
  · omega
  · omega

theorem idleStreak_add_one (l : List View) : idleStreak l + 1 = Int32.ofNat (counted l + 1) := by
  rw [idleStreak_eq]
  exact (Int32.ofNat_add _ _).symm

theorem warning_eq_some_iff {l : List View} {v : View} {w : Warning} :
    warning l v = some w ↔ v.Counts ∧ InRange (counted l + 1) ∧ ∃ p, v.waiting = some p ∧
      w = ⟨p, v.nrRunning p.cpu - 1, cpumaskFirst v.idle, idleStreak l + 1⟩ := by
  rw [warning, onTickEnd_eq, ← kstepIdleTicks_le_ofNat, ← idleStreak_add_one]
  by_cases hv : v.Counts
  · rw [if_pos hv]
    by_cases hrange : kstepIdleTicks ≤ idleStreak l + 1
    · rw [if_pos hrange, Option.map_eq_some_iff]
      simp only [hv, hrange, true_and]
      exact exists_congr fun p => and_congr_right fun _ => eq_comm
    · rw [if_neg hrange]
      simp only [hrange, false_and, and_false, reduceCtorEq]
  · rw [if_neg hv]
    simp only [hv, false_and, reduceCtorEq]

theorem warning_isSome_iff (l : List View) (v : View) :
    (warning l v).isSome ↔ v.Counts ∧ InRange (counted l + 1) := by
  rw [Option.isSome_iff_exists]
  constructor
  · rintro ⟨w, hw⟩
    obtain ⟨hcounts, hrange, -⟩ := warning_eq_some_iff.mp hw
    exact ⟨hcounts, hrange⟩
  · rintro ⟨hcounts, hrange⟩
    obtain ⟨p, hp⟩ := Option.isSome_iff_exists.mp hcounts.2.1
    exact ⟨_, warning_eq_some_iff.mpr ⟨hcounts, hrange, p, hp, rfl⟩⟩

/-- The condition the rule states: as much runnable work as test CPUs, an idle test CPU, and a
runnable task that may run there and is queued with another. -/
structure View.Owed (v : View) : Prop where
  enough : v.testNcpus ≤ v.runnable
  idle : ∃ cpu ∈ testCpus v.testNcpus, v.nrRunning cpu = 0
  queued : ∃ p ∈ v.tasks, p.exited = false ∧ p.running = true ∧ 1 < v.nrRunning p.cpu ∧
    ∃ cpu ∈ testCpus v.testNcpus, v.nrRunning cpu = 0 ∧ cpu ∈ p.cpusPtr

theorem View.Owed.counts_iff {v : View} (h : v.Owed) :
    v.Counts ↔ v.numOnlineCpus - 1 ≤ v.runnable := by
  have hidle : v.idle ≠ ∅ := by
    obtain ⟨cpu, htest, hzero⟩ := h.idle
    exact Finset.ne_empty_of_mem (Finset.mem_filter.mpr ⟨htest, hzero⟩)
  have hwaiting : v.waiting.isSome := by
    obtain ⟨p, hp, hexited, hrunning, hqueue, cpu, htest, hzero, hallowed⟩ := h.queued
    have hmeets : p.cpusPtr ∩ v.idle ≠ ∅ := Finset.ne_empty_of_mem
      (Finset.mem_inter.mpr ⟨hallowed, Finset.mem_filter.mpr ⟨htest, hzero⟩⟩)
    rw [View.waiting, List.find?_isSome]
    exact ⟨p, hp, by simp [Task.runnable, View.waits, hexited, hrunning, hqueue, hmeets]⟩
  exact ⟨fun hcounts => hcounts.2.2, fun hle => ⟨hidle, hwaiting, hle⟩⟩

/-- At the last of four tick ends in a row that meet the stated condition, whatever came before
them, the rule warns exactly when each of the four had a runnable task for every online CPU but
one, and the counter has not run over. -/
theorem warning_of_owed_iff (l m : List View) (v : View) (hm : m.length = 3)
    (howed : ∀ u ∈ m ++ [v], u.Owed) :
    (warning (l ++ m) v).isSome ↔
      (∀ u ∈ m ++ [v], u.numOnlineCpus - 1 ≤ u.runnable) ∧ InRange (counted (l ++ m ++ [v])) := by
  have hcounts : (∀ u ∈ m ++ [v], u.Counts) ↔ ∀ u ∈ m ++ [v], u.numOnlineCpus - 1 ≤ u.runnable :=
    forall₂_congr fun u hu => (howed u hu).counts_iff
  have hlen := length_le_counted_iff l (m ++ [v])
  rw [List.length_append, List.length_singleton, hm, ← List.append_assoc] at hlen
  rw [warning_isSome_iff, ← hcounts, ← hlen, counted_concat]
  by_cases hv : v.Counts
  · simp only [hv, true_and, if_true]
    refine ⟨fun hrange => ⟨?_, hrange⟩, fun h => h.2⟩
    exact hrange.1.trans (Nat.mod_le _ _)
  · simp [hv]

def twoOnOne (n : ℕ) : View where
  numOnlineCpus := n
  testNcpus := 2
  nrRunning cpu := if cpu = 1 then 2 else 0
  tasks := [⟨101, false, true, 1, {1, 2}⟩, ⟨102, false, true, 1, {1, 2}⟩]

theorem twoOnOne_owed (n : ℕ) : (twoOnOne n).Owed where
  enough := le_refl 2
  idle := ⟨2, by simp [twoOnOne, testCpus]⟩
  queued := ⟨⟨101, false, true, 1, {1, 2}⟩, List.mem_cons_self, rfl, rfl, by simp [twoOnOne], 2,
    by simp [twoOnOne, testCpus]⟩

theorem twoOnOne_replicate_owed (n : ℕ) :
    ∀ u ∈ List.replicate 3 (twoOnOne n) ++ [twoOnOne n], u.Owed := by
  intro u hu
  rw [← List.replicate_succ', List.mem_replicate] at hu
  rw [hu.2]
  exact twoOnOne_owed n

/-- With `CPUS=2` on a machine of four CPUs the rule stays silent for ever. -/
theorem owed_unwarned : ¬ ∀ (l m : List View) (v : View), m.length = 3 →
    (∀ u ∈ m ++ [v], u.Owed) → (warning (l ++ m) v).isSome := by
  intro h
  have hwarned := h [] _ (twoOnOne 4) List.length_replicate (twoOnOne_replicate_owed 4)
  revert hwarned
  decide

/-- With all test CPUs in use the same tick ends are reported. -/
theorem warning_of_owed_iff_three_cpus :
    (warning ([] ++ List.replicate 3 (twoOnOne 3)) (twoOnOne 3)).isSome :=
  (warning_of_owed_iff [] _ (twoOnOne 3) List.length_replicate (twoOnOne_replicate_owed 3)).mpr
    ⟨by decide, by unfold InRange; decide⟩

/-- What a warning says: the task may run on the CPU, which was idle at this tick end and at the
others of the count. -/
structure Truthful (l : List View) (v : View) (w : Warning) : Prop where
  allowed : w.idleCpu ∈ w.task.cpusPtr
  idle : v.nrRunning w.idleCpu = 0
  long : w.ticks.toInt.toNat - 1 ≤ l.length
  before : ∀ u ∈ l.reverse.take (w.ticks.toInt.toNat - 1), u.nrRunning w.idleCpu = 0

/-- The lowest idle test CPU is one the waiting task may use, and it was idle at every tick end
the counter stands for. -/
structure LowestIdleOwed (l : List View) (v : View) : Prop where
  allowed : ∀ p ∈ v.waiting, cpumaskFirst v.idle ∈ p.cpusPtr
  before : ∀ u ∈ l.reverse.take (idleStreak l).toInt.toNat, u.nrRunning (cpumaskFirst v.idle) = 0

theorem cpumaskFirst_mem {mask : Finset ℕ} (h : mask ≠ ∅) : cpumaskFirst mask ∈ mask := by
  obtain ⟨cpu, hcpu⟩ := Finset.min_of_nonempty (Finset.nonempty_iff_ne_empty.mpr h)
  rw [cpumaskFirst, hcpu, WithTop.untopD_coe]
  exact Finset.mem_of_min hcpu

theorem ticks_sub_one {l : List View} (h : InRange (counted l + 1)) :
    (idleStreak l + 1).toInt.toNat - 1 = (idleStreak l).toInt.toNat ∧
      (idleStreak l).toInt.toNat ≤ counted l := by
  have hsize : Int32.size = 2 ^ 32 := rfl
  obtain ⟨hlow, hhigh⟩ := h
  rw [idleStreak_add_one, idleStreak_eq, Int32.toInt_ofNat', Int32.toInt_ofNat', hsize,
    Int.bmod_def, Int.bmod_def]
  push_cast
  split_ifs
  all_goals omega

theorem truthful_iff {l : List View} {v : View} {p : Task} (hcounts : v.Counts)
    (hrange : InRange (counted l + 1)) (hp : v.waiting = some p) :
    Truthful l v ⟨p, v.nrRunning p.cpu - 1, cpumaskFirst v.idle, idleStreak l + 1⟩ ↔
      LowestIdleOwed l v := by
  obtain ⟨hticks, hle⟩ := ticks_sub_one hrange
  constructor
  · intro h
    refine ⟨?_, hticks ▸ h.before⟩
    intro q hq
    obtain rfl : p = q := Option.some.inj (hp.symm.trans hq)
    exact h.allowed
  · intro h
    refine ⟨h.allowed p hp, ?_, ?_, ?_⟩
    · exact (Finset.mem_filter.mp (cpumaskFirst_mem hcounts.1)).2
    · rw [hticks]
      exact hle.trans (counted_le_length l)
    · rw [hticks]
      exact h.before

/-- Every warning of a run tells the truth exactly when, at each tick end at which the rule is due
to warn, the lowest idle test CPU is one the waiting task may use and has been idle all along. -/
theorem warnings_truthful_iff (run : List View) :
    (∀ l v, l ++ [v] <+: run → ∀ w, warning l v = some w → Truthful l v w) ↔
      ∀ l v, l ++ [v] <+: run → v.Counts → InRange (counted l + 1) → LowestIdleOwed l v := by
  constructor
  · intro h l v hrun hcounts hrange
    obtain ⟨p, hp⟩ := Option.isSome_iff_exists.mp hcounts.2.1
    exact (truthful_iff hcounts hrange hp).mp
      (h l v hrun _ (warning_eq_some_iff.mpr ⟨hcounts, hrange, p, hp, rfl⟩))
  · intro h l v hrun w hw
    obtain ⟨hcounts, hrange, p, hp, rfl⟩ := warning_eq_some_iff.mp hw
    exact (truthful_iff hcounts hrange hp).mpr (h l v hrun hcounts hrange)

/-- The tick ends the counter stands for all count. -/
theorem counts_of_mem_take {l : List View} {u : View} (h : u ∈ l.reverse.take (counted l)) :
    u.Counts := by
  have htake := List.prefix_iff_eq_take.mp
    (List.takeWhile_prefix (l := l.reverse) fun v => decide v.Counts)
  rw [counted, ← htake] at h
  have hcount := List.mem_takeWhile_imp (p := fun v : View => decide v.Counts) h
  exact of_decide_eq_true hcount

/-- With the same single CPU idle whenever a tick end counts, and every task allowed on it, no
warning is wrong. -/
theorem truthful_of_one_idle {cpu : ℕ} {run : List View}
    (hidle : ∀ v ∈ run, v.Counts → v.idle = {cpu})
    (hallowed : ∀ v ∈ run, v.Counts → ∀ p ∈ v.tasks, cpu ∈ p.cpusPtr) (l : List View) (v : View)
    (hrun : l ++ [v] <+: run) (w : Warning) (hw : warning l v = some w) : Truthful l v w := by
  obtain ⟨hcounts, hrange, p, hp, rfl⟩ := warning_eq_some_iff.mp hw
  have hv : v ∈ run := hrun.subset (by simp)
  have hfirst : cpumaskFirst v.idle = cpu := by
    rw [hidle v hv hcounts, cpumaskFirst, Finset.min_singleton, WithTop.untopD_coe]
  refine (truthful_iff hcounts hrange hp).mpr ⟨fun q hq => ?_, fun u hu => ?_⟩
  · rw [hfirst]
    exact hallowed v hv hcounts q (List.mem_of_find?_eq_some hq)
  · have hcount := counts_of_mem_take
      ((List.take_prefix_take_left (ticks_sub_one hrange).2).subset hu)
    have hu' : u ∈ run :=
      hrun.subset (List.mem_append_left _ (List.mem_reverse.mp (List.mem_of_mem_take hu)))
    have hmem : cpu ∈ u.idle := by
      rw [hidle u hu' hcount]
      exact Finset.mem_singleton_self cpu
    rw [hfirst]
    exact (Finset.mem_filter.mp hmem).2

/-- Three tasks queued on CPU 3 of three test CPUs, none of which may run on CPU 1. -/
def barredFromOne : View where
  numOnlineCpus := 4
  testNcpus := 3
  nrRunning cpu := if cpu = 3 then 3 else 0
  tasks := [⟨101, false, true, 3, {2, 3}⟩, ⟨102, false, true, 3, {2, 3}⟩,
    ⟨103, false, true, 3, {2, 3}⟩]

theorem barredFromOne_warning : warning (List.replicate 3 barredFromOne) barredFromOne =
    some ⟨⟨101, false, true, 3, {2, 3}⟩, 2, 1, 4⟩ := by
  decide

/-- The rule names an idle CPU that the waiting task may not use. -/
theorem warning_untruthful :
    ¬ ∀ (l : List View) (v : View) (w : Warning), warning l v = some w → Truthful l v w := by
  intro h
  have hallowed := (h _ _ _ barredFromOne_warning).allowed
  revert hallowed
  decide

end KStep.WorkConserve
