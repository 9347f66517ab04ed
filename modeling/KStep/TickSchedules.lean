import KStep.TickOrder

/-!
# The orders a tick allows

Whatever the CPUs are asked, a tick can run all handlers before any switch, and it can run each
switch before the next handler. The two differ as soon as a CPU before the last is asked, which
with the order of `KStep.TickOrder` says exactly when a tick is deterministic.
-/

namespace KStep

open Runs

variable {σ : Type}

section Schedules

variable (w : SchedWork σ) (asks : ℕ → Bool) (rest : List Op) {cpus : List ℕ} {s : TickState σ}

/-- The controller calls every tick before any CPU acts. -/
theorem run_calls (cpus : List ℕ) (s : TickState σ) :
    ∃ s', run (tickStep w asks) (s, cpus.map .call ++ rest)
      (cpus.map fun c => .op (.call c) ()) = some (s', rest) ∧
    s'.trace = s.trace ++ cpus.map .tick ∧
    ∀ c, s'.pending c = (s.pending c || decide (c ∈ cpus) && asks c) := by
  induction cpus generalizing s with
  | nil => exact ⟨s, rfl, by simp, by simp⟩
  | cons d cpus ih =>
      obtain ⟨s', hrun, htrace, hpending⟩ :=
        ih (s.perform w (.tick d) (Function.update s.pending d (s.pending d || asks d)))
      refine ⟨s', ?_, ?_, fun c => ?_⟩
      · simpa [run, tickStep, interleave, tickOp] using hrun
      · simp [htrace, TickState.perform]
      · rw [hpending c]
        by_cases hc : c = d
        · subst hc
          cases asks c <;> simp [TickState.perform]
        · simp [TickState.perform, hc]

/-- The CPUs asked to act do so one after the other. -/
theorem run_switches (hnodup : cpus.Nodup) (hpending : ∀ c ∈ cpus, s.pending c = true) :
    ∃ s', run (tickStep w asks) (s, rest) (cpus.map .env) = some (s', rest) ∧
      s'.trace = s.trace ++ cpus.map .resched ∧
      ∀ c, s'.pending c = (s.pending c && decide (c ∉ cpus)) := by
  induction cpus generalizing s with
  | nil => exact ⟨s, rfl, by simp, by simp⟩
  | cons d cpus ih =>
      obtain ⟨hd, hnodup'⟩ := List.nodup_cons.mp hnodup
      obtain ⟨s', hrun, htrace, hpending'⟩ := ih hnodup'
        (s := s.perform w (.resched d) (Function.update s.pending d false)) fun c hc => by
          have hcd : c ≠ d := by
            rintro rfl
            exact hd hc
          simpa [TickState.perform, Function.update_of_ne hcd] using
            hpending c (List.mem_cons_of_mem d hc)
      refine ⟨s', ?_, ?_, fun c => ?_⟩
      · simpa [run, tickStep, interleave, tickEnv, hpending d List.mem_cons_self] using hrun
      · simp [htrace, TickState.perform]
      · rw [hpending' c]
        by_cases hc : c = d
        · subst hc
          simp [TickState.perform]
        · simp [TickState.perform, hc]

/-- Each CPU acts as soon as it is asked. -/
theorem run_eager (cpus : List ℕ) (hnone : ∀ c, s.pending c = false) :
    ∃ l s', run (tickStep w asks) (s, cpus.map .call ++ rest) l = some (s', rest) ∧
      s'.trace = s.trace ++
        cpus.flatMap (fun c => .tick c :: if asks c then [.resched c] else []) ∧
      ∀ c, s'.pending c = false := by
  induction cpus generalizing s with
  | nil => exact ⟨[], s, rfl, by simp, hnone⟩
  | cons d cpus ih =>
      let u := s.perform w (.tick d) (Function.update s.pending d (s.pending d || asks d))
      have hcall (l : List TickLabel) : run (tickStep w asks) (s, (d :: cpus).map .call ++ rest)
          (.op (.call d) () :: l) = run (tickStep w asks) (u, cpus.map .call ++ rest) l := by
        simp [run, tickStep, interleave, tickOp, u]
      by_cases hask : asks d = true
      · obtain ⟨l, s', hrun, htrace, hpending⟩ := ih
          (s := u.perform w (.resched d) (Function.update u.pending d false)) fun c => by
            by_cases hc : c = d
            · simp [TickState.perform, hc]
            · simp [TickState.perform, u, Function.update_of_ne hc, hnone]
        refine ⟨.op (.call d) () :: .env d :: l, s', ?_, ?_, hpending⟩
        · rw [hcall]
          simpa [run, tickStep, interleave, tickEnv, u, TickState.perform, hask] using hrun
        · simp [htrace, u, TickState.perform, hask]
      · obtain ⟨l, s', hrun, htrace, hpending⟩ := ih (s := u) fun c => by
          by_cases hc : c = d
          · simp [u, TickState.perform, hc, hnone, hask]
          · simp [TickState.perform, u, Function.update_of_ne hc, hnone]
        refine ⟨.op (.call d) () :: l, s', ?_, ?_, hpending⟩
        · rw [hcall]
          exact hrun
        · simp [htrace, u, TickState.perform, hask]

theorem run_polls (cpus : List ℕ) (hnone : ∀ c, s.pending c = false) :
    run (tickStep w asks) (s, cpus.map .poll ++ rest) (cpus.map fun c => .op (.poll c) ()) =
      some (s, rest) := by
  induction cpus with
  | nil => rfl
  | cons d cpus ih => simpa [run, tickStep, interleave, tickOp, hnone] using ih

end Schedules

/-- Once the calls and switches are done the last settle passes. -/
theorem ticks_of_run {w : SchedWork σ} {asks : ℕ → Bool} {k : ℕ} {s : σ} {t : TickState σ}
    {l : List TickLabel}
    (h : run (tickStep w asks) (TickState.start s, (testCpuList k).map .call ++ kstepSettle k) l =
      some (t, kstepSettle k)) (hnone : ∀ c, t.pending c = false) : Ticks w asks k s t := by
  have hfirst : run (tickStep w asks) (TickState.start s, kstepTick k)
      ((testCpuList k).map fun c => .op (.poll c) ()) =
        some (TickState.start s, (testCpuList k).map .call ++ kstepSettle k) := by
    rw [kstepTick, List.append_assoc, kstepSettle]
    exact run_polls w asks _ _ fun _ => rfl
  have hlast : run (tickStep w asks) (t, kstepSettle k)
      ((testCpuList k).map fun c => .op (.poll c) ()) = some (t, []) := by
    simpa [kstepSettle] using run_polls w asks [] (testCpuList k) hnone
  exact ⟨_, (run_append hfirst).trans ((run_append h).trans hlast)⟩

/-- A tick in which all handlers run before any switch. -/
theorem ticks_late (w : SchedWork σ) (asks : ℕ → Bool) (k : ℕ) (s : σ) :
    ∃ t, Ticks w asks k s t ∧
      t.trace = (testCpuList k).map .tick ++ ((testCpuList k).filter asks).map .resched := by
  obtain ⟨u, hcalls, htrace, hpending⟩ :=
    run_calls w asks (kstepSettle k) (testCpuList k) (TickState.start s)
  have hnodup : ((testCpuList k).filter asks).Nodup := List.Nodup.filter _ List.nodup_range'
  obtain ⟨t, hswitches, htrace', hpending'⟩ :=
    run_switches w asks (kstepSettle k) (s := u) hnodup fun c hc => by
      rw [List.mem_filter] at hc
      simp [hpending, hc]
  refine ⟨t, ticks_of_run (l := _ ++ _) ((run_append hcalls).trans hswitches) fun c => ?_, ?_⟩
  · rw [hpending', hpending]
    by_cases hc : c ∈ testCpuList k <;> cases hask : asks c <;> simp [TickState.start, hc, hask]
  · simp [htrace', htrace, TickState.start]

/-- A tick in which each CPU switches before the next one's handler. -/
theorem ticks_eager (w : SchedWork σ) (asks : ℕ → Bool) (k : ℕ) (s : σ) :
    ∃ t, Ticks w asks k s t ∧ t.trace = (testCpuList k).flatMap
      fun c => .tick c :: if asks c then [.resched c] else [] := by
  obtain ⟨l, t, hrun, htrace, hpending⟩ :=
    run_eager w asks (kstepSettle k) (s := TickState.start s) (testCpuList k) fun _ => rfl
  exact ⟨t, ticks_of_run hrun hpending, by simp [htrace, TickState.start]⟩

/-- No handler runs after a switch. -/
def HandlersFirst : List TickOp → Prop :=
  List.Pairwise fun o o' => ∀ c d, o = .resched c → o' ≠ .tick d

theorem handlersFirst_late (cpus cpus' : List ℕ) :
    HandlersFirst (cpus.map .tick ++ cpus'.map .resched) := by
  refine List.pairwise_append.mpr ⟨?_, ?_, ?_⟩
  · exact List.pairwise_map.mpr (List.pairwise_of_forall (by simp))
  · exact List.pairwise_map.mpr (List.pairwise_of_forall (by simp))
  · simp

theorem handlersFirst_eager {asks : ℕ → Bool} {k c : ℕ}
    (h : HandlersFirst ((testCpuList k).flatMap
      fun c => .tick c :: if asks c then [.resched c] else []))
    (hc : 1 ≤ c) (hk : c < k) : asks c = false := by
  by_contra hask
  have hpair := List.pairwise_iff_getElem.mp (List.pairwise_flatMap.mp h).2 (c - 1) (k - 1)
    (by simp only [testCpuList, List.length_range']; omega)
    (by simp only [testCpuList, List.length_range']; omega) (by omega)
  have hget : 1 + (c - 1) = c := by omega
  have hget' : 1 + (k - 1) = k := by omega
  simp only [testCpuList, List.getElem_range', one_mul, hget, hget'] at hpair
  exact hpair (.resched c) (by simp [hask]) (.tick k) (by simp) c k rfl rfl

/-- Two runs of a tick order the work alike exactly when no test CPU but the last asks for a
reschedule. -/
theorem tickDeterministic_iff (asks : ℕ → Bool) (k : ℕ) :
    TickDeterministic asks k ↔ ∀ c, 1 ≤ c → c < k → asks c = false := by
  constructor
  · intro hdet c hc hk
    obtain ⟨t, ht, htrace⟩ := ticks_late ⟨fun _ => id, fun _ => id⟩ asks k ()
    obtain ⟨t', ht', htrace'⟩ := ticks_eager ⟨fun _ => id, fun _ => id⟩ asks k ()
    have heq := (hdet Unit _ () t t' ht ht').1
    refine handlersFirst_eager ?_ hc hk
    rw [← htrace', ← heq, htrace]
    exact handlersFirst_late _ _
  · intro hasks σ w s t t' ht ht'
    have heq : t.trace = t'.trace := (ticks_trace hasks ht).trans (ticks_trace hasks ht').symm
    exact ⟨heq, by rw [ticks_sched ht, ticks_sched ht', heq]⟩

/-- Two test CPUs, the first one asked to reschedule: it switches before the second one's handler
or after it. -/
theorem tick_two_orders : ¬ TickDeterministic (· == 1) 2 := by
  intro hdet
  have heq := (hdet Unit ⟨fun _ => id, fun _ => id⟩ () _ _
    ⟨[.op (.poll 1) (), .op (.poll 2) (), .op (.call 1) (), .env 1, .op (.call 2) (),
      .op (.poll 1) (), .op (.poll 2) ()], rfl⟩
    ⟨[.op (.poll 1) (), .op (.poll 2) (), .op (.call 1) (), .op (.call 2) (), .env 1,
      .op (.poll 1) (), .op (.poll 2) ()], rfl⟩).1
  exact absurd heq (by decide)

end KStep
