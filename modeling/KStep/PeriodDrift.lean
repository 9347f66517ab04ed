import KStep.PeriodTimers
import Mathlib.Data.Rat.Lemmas
import Mathlib.Algebra.Order.Field.Rat
import Mathlib.Algebra.Order.Field.Basic

/-!
# Period timers and the mocked clock

The callbacks of a period timer keep time with the clock when the period is a whole number of ticks.
For any other period they run ahead of it without bound.
-/

namespace KStep.Bandwidth

open Runs

variable (c : Config)

/-- A number of callbacks in `n` ticks is within one of the number of periods. -/
def WithinOne (calls n P : ℕ) : Prop := |(calls : ℚ) - n * c.tickNsec / P| ≤ 1

/-- In every run in which a timer stays active with period `P`, its callbacks keep time with the
mocked clock. -/
def KeepsTime (P : ℕ) : Prop :=
  ∀ (s s' : State) (ticks : List Surroundings) (i : Timer),
    run (kstepTick c) s ticks = some s' → Always (kstepTick c) (StaysActive c i P) s ticks →
      s'.schedClock = s.schedClock + ticks.length * c.tickNsec ∧
        WithinOne c (s'.calls i - s.calls i) ticks.length P

variable {c} {s : State} {P n calls : ℕ}

theorem withinOne_iff (hP : 0 < P) :
    WithinOne c calls n P ↔
      calls * P ≤ n * c.tickNsec + P ∧ n * c.tickNsec ≤ (calls + 1) * P := by
  have hpos : (0 : ℚ) < P := by exact_mod_cast hP
  have hupper : (calls : ℚ) - n * c.tickNsec / P ≤ 1 ↔ calls * P ≤ n * c.tickNsec + P := by
    rw [sub_le_iff_le_add, ← sub_le_iff_le_add', le_div_iff₀ hpos, sub_mul, one_mul,
      sub_le_iff_le_add]
    exact_mod_cast Iff.rfl
  have hlower : (n * c.tickNsec / P : ℚ) - calls ≤ 1 ↔ n * c.tickNsec ≤ (calls + 1) * P := by
    rw [sub_le_iff_le_add, div_le_iff₀ hpos, add_comm (1 : ℚ)]
    exact_mod_cast Iff.rfl
  rw [WithinOne, abs_sub_le_iff, hupper, hlower]

/-- The multiples of `q` passed in `n` steps from `a` are within one of `n / q`. -/
theorem passed_within {a q : ℕ} (hq : 0 < q) :
    ((a + n) / q - a / q) * q ≤ n + q ∧ n ≤ ((a + n) / q - a / q + 1) * q := by
  have hmono : a / q ≤ (a + n) / q := Nat.div_le_div_right (Nat.le_add_right a n)
  have hend := Nat.div_add_mod (a + n) q
  have hstart := Nat.div_add_mod a q
  have hend' := Nat.mod_lt (a + n) hq
  have hstart' := Nat.mod_lt a hq
  obtain ⟨d, hd⟩ := Nat.exists_eq_add_of_le hmono
  have hmul : q * ((a + n) / q) = q * (a / q) + d * q := by
    rw [hd, Nat.mul_add, Nat.mul_comm q d]
  rw [hd, Nat.add_sub_cancel_left, Nat.succ_mul]
  omega

theorem keepsTime_of_dvd (hT : 0 < c.tickNsec) (hP : c.tickNsec ≤ P)
    (hdefault : c.tickIntervalNs = 0) (h : c.tickNsec ∣ P) : KeepsTime c P := by
  intro s s' ticks i hrun hactive
  have hq : 0 < P / c.tickNsec := Nat.div_pos hP hT
  obtain ⟨hclock, hcalls⟩ := run_calls hdefault hq hrun hactive
  have hPq : P / c.tickNsec * c.tickNsec = P := Nat.div_mul_cancel h
  refine ⟨hclock, (withinOne_iff (hT.trans_le hP)).mpr ?_⟩
  have hmono : s.kstepJiffies / (P / c.tickNsec) ≤
      (s.kstepJiffies + ticks.length) / (P / c.tickNsec) :=
    Nat.div_le_div_right (Nat.le_add_right _ _)
  have hcount : s'.calls i - s.calls i = (s.kstepJiffies + ticks.length) / (P / c.tickNsec) -
      s.kstepJiffies / (P / c.tickNsec) := by omega
  obtain ⟨hupper, hlower⟩ := passed_within (a := s.kstepJiffies) (n := ticks.length) hq
  rw [hcount]
  generalize (s.kstepJiffies + ticks.length) / (P / c.tickNsec) -
    s.kstepJiffies / (P / c.tickNsec) = m at hupper hlower ⊢
  constructor
  · calc m * P = m * (P / c.tickNsec) * c.tickNsec := by rw [Nat.mul_assoc, hPq]
      _ ≤ (ticks.length + P / c.tickNsec) * c.tickNsec := Nat.mul_le_mul_right _ hupper
      _ = ticks.length * c.tickNsec + P := by rw [Nat.add_mul, hPq]
  · calc ticks.length * c.tickNsec ≤ (m + 1) * (P / c.tickNsec) * c.tickNsec :=
          Nat.mul_le_mul_right _ hlower
      _ = (m + 1) * P := by rw [Nat.mul_assoc, hPq]

section Steady

def quietTick : Surroundings := ⟨id, fun _ => id, [0], List.nodup_singleton 0⟩

/-- Every timer is active with period `P`, and nothing but the module moves the jiffies. -/
structure Steady (c : Config) (P : ℕ) (s : State) : Prop where
  jiffies : s.jiffies = s.kstepJiffies + c.jiffiesOffset
  periods : s.periods = fun _ => ⟨P, true⟩

theorem visit_periods_quiet (s : State) (j : Timer) :
    (visit c (fun _ => id) s j).periods = s.periods := by
  simp only [visit, kstepPeriodTimerTick]
  split_ifs <;> rfl

theorem foldl_periods_quiet (l : List Timer) (s : State) :
    (l.foldl (visit c fun _ => id) s).periods = s.periods := by
  induction l generalizing s with
  | nil => rfl
  | cons j l ih => rw [List.foldl_cons, ih, visit_periods_quiet]

theorem activeAt_quiet (h : s.periods = fun _ => ⟨P, true⟩) (i : Timer) (l : List Timer) :
    ActiveAt c (fun _ => id) i P s l := by
  induction l generalizing s with
  | nil => trivial
  | cons j l ih =>
      refine ⟨fun _ => ?_, ih ((visit_periods_quiet s j).trans h)⟩
      rw [h]

theorem Steady.tick (h : Steady c P s) :
    StaysActive c (0, .cfs) P s quietTick ∧
      ∃ t, kstepTick c s quietTick = some t ∧ Steady c P t := by
  have hset : kstepJiffiesTick c (kstepSchedClockTick c s) =
      some (kstepJiffiesSet c (s.kstepJiffies + 1) (kstepSchedClockTick c s)) :=
    if_neg (not_not.mpr h.jiffies)
  refine ⟨⟨by simp [quietTick, timersOf], fun t ht => ?_⟩, kstepBandwidthTick c quietTick
    (kstepJiffiesSet c (s.kstepJiffies + 1) (kstepSchedClockTick c s)), ?_, ?_, ?_⟩
  · cases hset.symm.trans ht
    refine activeAt_quiet ?_ _ _
    exact h.periods
  · rw [kstepTick, hset]
    rfl
  · have hclocks := foldl_visit_clocks c quietTick.callback
      (quietTick.taskGroups.flatMap (timersOf c))
      (kstepJiffiesSet c (s.kstepJiffies + 1) (kstepSchedClockTick c s))
    rw [kstepBandwidthTick, hclocks.1, hclocks.2.1]
    rfl
  · exact (foldl_periods_quiet _ _).trans h.periods

theorem Steady.run (h : Steady c P s) (n : ℕ) :
    Always (kstepTick c) (StaysActive c (0, .cfs) P) s (List.replicate n quietTick) ∧
      ∃ t, Runs.run (kstepTick c) s (List.replicate n quietTick) = some t := by
  induction n generalizing s with
  | zero => exact ⟨trivial, s, rfl⟩
  | succ n ih =>
      obtain ⟨hactive, t, ht, hsteady⟩ := h.tick
      obtain ⟨hrest, u, hu⟩ := ih hsteady
      rw [List.replicate_succ]
      refine ⟨?_, u, ?_⟩
      · simp only [Always, ht]
        exact ⟨hactive, hrest⟩
      · simp only [Runs.run, ht]
        exact hu

/-- A period with a remainder is passed too often: after `P + 1` of its whole ticks the callbacks
are ahead by more than one. -/
theorem dvd_of_keepsTime (hT : 0 < c.tickNsec) (hP : c.tickNsec ≤ P)
    (hdefault : c.tickIntervalNs = 0) (h : KeepsTime c P) : c.tickNsec ∣ P := by
  have hq : 0 < P / c.tickNsec := Nat.div_pos hP hT
  have hsteady : Steady c P ⟨c.tickNsec, 0, c.jiffiesOffset, fun _ => ⟨P, true⟩, fun _ => 0⟩ :=
    ⟨(Nat.zero_add _).symm, rfl⟩
  obtain ⟨hactive, t, ht⟩ := hsteady.run ((P + 1) * (P / c.tickNsec))
  obtain ⟨-, hwithin⟩ := h _ t _ (0, .cfs) ht hactive
  obtain ⟨-, hcalls⟩ := run_calls hdefault hq ht hactive
  have hcount : t.calls (0, .cfs) = P + 1 := by
    simpa [Nat.mul_div_cancel _ hq] using hcalls
  rw [withinOne_iff (hT.trans_le hP), List.length_replicate, Nat.sub_zero, hcount] at hwithin
  by_contra hdvd
  have hrem : 0 < P % c.tickNsec := Nat.pos_of_ne_zero fun hzero =>
    hdvd (Nat.dvd_of_mod_eq_zero hzero)
  have hsplit : (P + 1) * P =
      (P + 1) * (P / c.tickNsec) * c.tickNsec + (P + 1) * (P % c.tickNsec) := by
    rw [Nat.mul_assoc, ← Nat.mul_add, Nat.div_add_mod']
  have hahead : P + 1 ≤ (P + 1) * (P % c.tickNsec) := Nat.le_mul_of_pos_right _ hrem
  omega

end Steady

/-- The callbacks keep time with the clock exactly for the periods that are whole numbers of
ticks. -/
theorem keepsTime_iff (hT : 0 < c.tickNsec) (hP : c.tickNsec ≤ P)
    (hdefault : c.tickIntervalNs = 0) : KeepsTime c P ↔ c.tickNsec ∣ P :=
  ⟨dvd_of_keepsTime hT hP hdefault, keepsTime_of_dvd hT hP hdefault⟩

def millisecondTicks : Config := ⟨1000000, 1, 0, true⟩

/-- The default period of 100 ms. -/
theorem keepsTime_default : KeepsTime millisecondTicks 100000000 :=
  (keepsTime_iff (by decide) (by decide) rfl).mpr (by decide)

/-- A period of 1.5 ms has its callback invoked in each of four ticks, where the clock has passed
two and two thirds of it. -/
theorem not_keepsTime : ¬ ∀ P, 1000000 ≤ P → KeepsTime millisecondTicks P := by
  intro h
  have hsteady : Steady millisecondTicks 1500000
      ⟨1000000, 0, 1, fun _ => ⟨1500000, true⟩, fun _ => 0⟩ := ⟨rfl, rfl⟩
  obtain ⟨hactive, t, ht⟩ := hsteady.run 4
  obtain ⟨-, hwithin⟩ := h 1500000 (by decide) _ t _ (0, .cfs) ht hactive
  obtain ⟨-, hcalls⟩ := run_calls rfl (by decide) ht hactive
  have hcount : t.calls (0, .cfs) = 4 := hcalls
  rw [withinOne_iff (by decide), hcount] at hwithin
  exact absurd hwithin (by decide)

end KStep.Bandwidth
