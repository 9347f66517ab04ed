import KStep.Runs
import Mathlib.Data.List.Nodup

/-!
# Bandwidth period timers

`kstep_tick` advances the mocked clock and jiffies by one tick and then visits the period timers of
all task groups. A timer that is active has its callback invoked when the jiffies are a multiple of
its period in whole ticks, so over a run its callbacks are the multiples that the jiffies pass.
-/

namespace KStep.Bandwidth

open Runs

inductive Class
  | cfs | rt
  deriving DecidableEq, Repr

abbrev Timer := ℕ × Class

/-- `period` in nanoseconds, and `period_active`. -/
structure Period where
  ns : ℕ
  active : Bool

abbrev Periods := Timer → Period

/-- The kernel's configuration and the driver's `tick_interval_ns`, 0 for the default. -/
structure Config where
  tickNsec : ℕ
  jiffiesOffset : ℕ
  tickIntervalNs : ℕ
  rtGroupSched : Bool

/-- The mocked clocks, the kernel's `jiffies`, the timers, and how often the callback of each was
invoked. -/
structure State where
  schedClock : ℕ
  kstepJiffies : ℕ
  jiffies : ℕ
  periods : Periods
  calls : Timer → ℕ

/-- What the kernel does to the timers around a tick: before the timers are visited, and in the
callback of each. `taskGroups` are the groups it has then. -/
structure Surroundings where
  before : Periods → Periods
  callback : Timer → Periods → Periods
  taskGroups : List ℕ
  nodup : taskGroups.Nodup

variable (c : Config)

def kstepSchedClockTick (s : State) : State :=
  let interval := if c.tickIntervalNs = 0 then c.tickNsec else c.tickIntervalNs
  { s with schedClock := s.schedClock + interval }

def kstepJiffiesSet (value : ℕ) (s : State) : State :=
  { s with kstepJiffies := value, jiffies := value + c.jiffiesOffset }

/-- `none` is the panic over jiffies that something else has moved. -/
def kstepJiffiesTick (s : State) : Option State :=
  if s.jiffies ≠ s.kstepJiffies + c.jiffiesOffset then none
  else some (kstepJiffiesSet c (s.kstepJiffies + 1) s)

def kstepPeriodTimerTick (callback : Periods → Periods) (i : Timer) (s : State) : State :=
  let periodTicks := (s.periods i).ns / c.tickNsec
  if periodTicks = 0 ∨ s.kstepJiffies % periodTicks = 0 then
    { s with
      periods := callback s.periods
      calls := Function.update s.calls i (s.calls i + 1) }
  else s

def visit (callback : Timer → Periods → Periods) (s : State) (i : Timer) : State :=
  if (s.periods i).active then kstepPeriodTimerTick c (callback i) i s else s

def timersOf (tg : ℕ) : List Timer := (tg, .cfs) :: if c.rtGroupSched then [(tg, .rt)] else []

def kstepBandwidthTick (x : Surroundings) (s : State) : State :=
  (x.taskGroups.flatMap (timersOf c)).foldl (visit c x.callback) s

def kstepTick (s : State) (x : Surroundings) : Option State :=
  (kstepJiffiesTick c (kstepSchedClockTick c s)).map fun t =>
    kstepBandwidthTick c x { t with periods := x.before t.periods }

def ActiveAt (callback : Timer → Periods → Periods) (i : Timer) (P : ℕ) : State → List Timer → Prop
  | _, [] => True
  | s, j :: l => (j = i → s.periods i = ⟨P, true⟩) ∧ ActiveAt callback i P (visit c callback s j) l

/-- The timer's group is there in the tick and the timer is active with period `P`. -/
def StaysActive (i : Timer) (P : ℕ) (s : State) (x : Surroundings) : Prop :=
  i ∈ x.taskGroups.flatMap (timersOf c) ∧
    ∀ t, kstepJiffiesTick c (kstepSchedClockTick c s) = some t →
      ActiveAt c x.callback i P { t with periods := x.before t.periods }
        (x.taskGroups.flatMap (timersOf c))

variable {c} {callback : Timer → Periods → Periods} {i j : Timer} {s s' : State} {P : ℕ}
  {l : List Timer} {x : Surroundings} {ticks : List Surroundings}

/-- What a visit leaves as it is. -/
theorem visit_clocks (c : Config) (callback : Timer → Periods → Periods) (s : State) (j : Timer) :
    (visit c callback s j).kstepJiffies = s.kstepJiffies ∧
      (visit c callback s j).jiffies = s.jiffies ∧
      (visit c callback s j).schedClock = s.schedClock := by
  simp only [visit, kstepPeriodTimerTick]
  split_ifs <;> exact ⟨rfl, rfl, rfl⟩

theorem visit_calls_ne (h : j ≠ i) : (visit c callback s j).calls i = s.calls i := by
  simp only [visit, kstepPeriodTimerTick]
  split_ifs
  · exact Function.update_of_ne h.symm _ _
  · rfl
  · rfl

/-- The callback of an active timer is invoked at the multiples of its period in ticks. -/
theorem visit_calls_self (h : s.periods i = ⟨P, true⟩) (hq : 0 < P / c.tickNsec) :
    (visit c callback s i).calls i =
      s.calls i + if P / c.tickNsec ∣ s.kstepJiffies then 1 else 0 := by
  have hiff : (P / c.tickNsec = 0 ∨ s.kstepJiffies % (P / c.tickNsec) = 0) ↔
      P / c.tickNsec ∣ s.kstepJiffies := by
    rw [or_iff_right (Nat.ne_of_gt hq), Nat.dvd_iff_mod_eq_zero]
  simp only [visit, kstepPeriodTimerTick, h, if_true, hiff]
  split_ifs
  · exact Function.update_self _ _ _
  · rfl

theorem foldl_visit_clocks (c : Config) (callback : Timer → Periods → Periods) (l : List Timer)
    (s : State) :
    (l.foldl (visit c callback) s).kstepJiffies = s.kstepJiffies ∧
      (l.foldl (visit c callback) s).jiffies = s.jiffies ∧
      (l.foldl (visit c callback) s).schedClock = s.schedClock := by
  induction l generalizing s with
  | nil => exact ⟨rfl, rfl, rfl⟩
  | cons j l ih =>
      obtain ⟨hk, hj, hc⟩ := visit_clocks c callback s j
      rw [List.foldl_cons, (ih _).1, (ih _).2.1, (ih _).2.2]
      exact ⟨hk, hj, hc⟩

theorem foldl_visit_calls_of_not_mem (h : i ∉ l) :
    (l.foldl (visit c callback) s).calls i = s.calls i := by
  induction l generalizing s with
  | nil => rfl
  | cons j l ih =>
      rw [List.mem_cons, not_or] at h
      rw [List.foldl_cons, ih h.2, visit_calls_ne (Ne.symm h.1)]

/-- The loop visits the timer once. -/
theorem foldl_visit_calls (hl : l.Nodup) (hi : i ∈ l) (hactive : ActiveAt c callback i P s l)
    (hq : 0 < P / c.tickNsec) :
    (l.foldl (visit c callback) s).calls i =
      s.calls i + if P / c.tickNsec ∣ s.kstepJiffies then 1 else 0 := by
  induction l generalizing s with
  | nil => cases hi
  | cons j l ih =>
      rw [List.nodup_cons] at hl
      rw [List.foldl_cons]
      by_cases hj : j = i
      · subst hj
        rw [foldl_visit_calls_of_not_mem hl.1, visit_calls_self (hactive.1 rfl) hq]
      · have hmem : i ∈ l := (List.mem_cons.mp hi).resolve_left (Ne.symm hj)
        rw [ih hl.2 hmem hactive.2, visit_calls_ne hj, (visit_clocks c callback s j).1]

theorem nodup_timers (x : Surroundings) : (x.taskGroups.flatMap (timersOf c)).Nodup := by
  rw [List.nodup_flatMap]
  refine ⟨fun tg _ => ?_, x.nodup.imp fun {a b} hne => ?_⟩
  · unfold timersOf
    split_ifs <;> simp
  · intro i hi hi'
    have hfst {tg : ℕ} (h : i ∈ timersOf c tg) : i.1 = tg := by
      unfold timersOf at h
      split_ifs at h <;> simp at h
      · rcases h with rfl | rfl <;> rfl
      · rw [h]
    exact hne ((hfst hi).symm.trans (hfst hi'))

theorem kstepTick_cases (h : kstepTick c s x = some s') :
    ∃ t, kstepJiffiesTick c (kstepSchedClockTick c s) = some t ∧
      t = kstepJiffiesSet c (s.kstepJiffies + 1) (kstepSchedClockTick c s) ∧
      s' = kstepBandwidthTick c x { t with periods := x.before t.periods } := by
  obtain ⟨t, ht, heq⟩ := Option.map_eq_some_iff.mp h
  refine ⟨t, ht, ?_, heq.symm⟩
  unfold kstepJiffiesTick at ht
  split_ifs at ht
  exact (Option.some.inj ht).symm

/-- One tick: the clocks move on by one, and the callback is invoked if the new jiffies are a
multiple of the period in ticks. -/
theorem kstepTick_calls (hdefault : c.tickIntervalNs = 0) (hq : 0 < P / c.tickNsec)
    (h : kstepTick c s x = some s') (hactive : StaysActive c i P s x) :
    s'.kstepJiffies = s.kstepJiffies + 1 ∧ s'.schedClock = s.schedClock + c.tickNsec ∧
      s'.calls i = s.calls i + if P / c.tickNsec ∣ s.kstepJiffies + 1 then 1 else 0 := by
  obtain ⟨t, ht, rfl, rfl⟩ := kstepTick_cases h
  have hclocks := foldl_visit_clocks c x.callback (x.taskGroups.flatMap (timersOf c))
    { kstepJiffiesSet c (s.kstepJiffies + 1) (kstepSchedClockTick c s) with
      periods := x.before (kstepJiffiesSet c (s.kstepJiffies + 1)
        (kstepSchedClockTick c s)).periods }
  refine ⟨hclocks.1, hclocks.2.2.trans ?_, ?_⟩
  · simp only [kstepJiffiesSet, kstepSchedClockTick, if_pos hdefault]
  · exact foldl_visit_calls (nodup_timers x) hactive.1 (hactive.2 _ ht) hq

/-- Over a run the callbacks are the multiples of the period in ticks that the jiffies pass. -/
theorem run_calls (hdefault : c.tickIntervalNs = 0) (hq : 0 < P / c.tickNsec)
    (h : run (kstepTick c) s ticks = some s')
    (hactive : Always (kstepTick c) (StaysActive c i P) s ticks) :
    s'.schedClock = s.schedClock + ticks.length * c.tickNsec ∧
      s'.calls i + s.kstepJiffies / (P / c.tickNsec) =
        s.calls i + (s.kstepJiffies + ticks.length) / (P / c.tickNsec) := by
  induction ticks generalizing s with
  | nil =>
      cases h
      exact ⟨by simp, by simp⟩
  | cons x ticks ih =>
      obtain ⟨u, hu, hrun⟩ := run_cons h
      simp only [Always, hu] at hactive
      obtain ⟨hjiffies, hclock, hcalls⟩ := kstepTick_calls hdefault hq hu hactive.1
      obtain ⟨hclock', hcalls'⟩ := ih hrun hactive.2
      have hdiv := Nat.succ_div (a := s.kstepJiffies) (b := P / c.tickNsec)
      refine ⟨?_, ?_⟩
      · rw [hclock', hclock, List.length_cons, Nat.succ_mul]
        omega
      · rw [hjiffies, hdiv, hcalls] at hcalls'
        rw [List.length_cons, show s.kstepJiffies + (ticks.length + 1) =
          s.kstepJiffies + 1 + ticks.length by omega]
        omega

end KStep.Bandwidth
